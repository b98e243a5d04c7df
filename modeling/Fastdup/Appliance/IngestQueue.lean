import Fastdup.Appliance.CommitWriter
import Mathlib.Logic.Function.Basic

/-!
# The ingest queue

Accepted writes reach the staging workers as jobs of their inode: truncations, single fragments, or
batches of fragments that are sealed when they are full. The calls of all inodes interleave, each
under the lock of the queue; an inode that has no queue yet has the empty one.

The byte budget, the ring slots, the age of a batch and the number of writers only decide when a
fragment is admitted, whether as a job of its own or to the open batch and with which target, when
an open batch is sealed and which ready inode a worker takes. All of this is left open here.
-/

namespace Fastdup.Appliance

open Library Checked Function List

def WRITE_THROUGH_FRAGMENT_MAX_BYTES_V1 : ℕ := 1024 * 1024

/-- A byte range of one write, as the ingest workers take it. -/
structure IngestWriteFragment where
  offset : ℕ
  length : ℕ
  mutationSequence : ℕ
  placement : ContainerPlacement

/-- The work of one job. -/
inductive IngestJobKind where
  | writeFragment (fragment : IngestWriteFragment)
  | writeBatch (fragments : List IngestWriteFragment)
  | truncate

/-- A job of an inode, with the mutation it completes. -/
structure IngestJob where
  mutationSequence : ℕ
  kind : IngestJobKind

def IngestJob.fragments (job : IngestJob) : List IngestWriteFragment :=
  match job.kind with
  | .writeFragment fragment => [fragment]
  | .writeBatch fragments => fragments
  | .truncate => []

/-- Writes gathered into one job that is not yet queued; it is never empty. -/
structure OpenIngestBatch where
  fragments : List IngestWriteFragment
  bufferedBytes : ℕ
  lastMutationSequence : ℕ
  nonempty : fragments ≠ []

def OpenIngestBatch.intoJob (batch : OpenIngestBatch) : IngestJob :=
  ⟨batch.lastMutationSequence, .writeBatch batch.fragments⟩

/-- The jobs of one inode, of which at most one runs. -/
structure InodeJobQueue where
  pending : List IngestJob := []
  batch : Option OpenIngestBatch := none
  inFlight : Bool := false
  lastEnqueuedSequence : ℕ := 0
  completedSequence : ℕ := 0

/-- The assertions of the queue, each of which would panic the appliance. -/
inductive IngestAssertion where
  | sequenceMovesBackwards
  | oneActiveJob
  | readyOwnsWork
  | jobActive
  | completedMovesBackwards

/-- The fragments of an accepted write all carry its sequence. -/
def enqueueWrite (offset mutationSequence : ℕ) (placement : ContainerPlacement) (length : ℕ) :
    List IngestWriteFragment :=
  let bound := WRITE_THROUGH_FRAGMENT_MAX_BYTES_V1
  (range ((length + bound - 1) / bound)).map fun index =>
    { offset := offset + index * bound, length := min bound (length - index * bound),
      mutationSequence, placement }

namespace InodeJobQueue

variable (queue : InodeJobQueue)

/-- The fragment follows the last one without a gap, in order and for the same placement, and the
batch has room below its target. -/
def ingestFragmentExtendsBatch (fragment : IngestWriteFragment) (target : ℕ) : Bool :=
  queue.batch.all fun batch =>
    batch.fragments.getLast?.all (fun last => last.offset + last.length < 2 ^ 64 ∧
      last.offset + last.length = fragment.offset ∧
      last.mutationSequence ≤ fragment.mutationSequence ∧ fragment.placement = last.placement) &&
    batch.bufferedBytes + fragment.length ≤ target

/-- The open batch becomes a job. -/
def sealOpenIngestBatch : InodeJobQueue :=
  queue.batch.elim queue fun batch =>
    { queue with batch := none, pending := queue.pending ++ [batch.intoJob] }

/-- A truncation or an unbatched fragment. -/
def enqueue (job : IngestJob) : Except IngestAssertion InodeJobQueue := do
  let queue := queue.sealOpenIngestBatch
  require (job.mutationSequence < queue.lastEnqueuedSequence) .sequenceMovesBackwards
  return { queue with
    lastEnqueuedSequence := job.mutationSequence
    pending := queue.pending ++ [job] }

/-- The open batch with one more fragment; it is sealed when it reaches the target. -/
def admitFragment (fragment : IngestWriteFragment) (target : ℕ) : InodeJobQueue :=
  let batch : OpenIngestBatch :=
    { fragments := queue.batch.elim [] (·.fragments) ++ [fragment]
      bufferedBytes := queue.batch.elim 0 (·.bufferedBytes) + fragment.length
      lastMutationSequence := fragment.mutationSequence
      nonempty := by simp }
  let queue := { queue with
    lastEnqueuedSequence := fragment.mutationSequence
    batch := some batch }
  if target ≤ batch.bufferedBytes then queue.sealOpenIngestBatch else queue

/-- A fragment joins the open batch while it fits. -/
def enqueueWriteFragment (fragment : IngestWriteFragment) (target : ℕ) :
    Except IngestAssertion InodeJobQueue := do
  require (fragment.mutationSequence < queue.lastEnqueuedSequence) .sequenceMovesBackwards
  if queue.ingestFragmentExtendsBatch fragment target then
    return queue.admitFragment fragment target
  else return queue.sealOpenIngestBatch.admitFragment fragment target

/-- Hands the oldest job to a worker. -/
def nextJob : Except IngestAssertion (IngestJob × InodeJobQueue) := do
  require (queue.inFlight = true) .oneActiveJob
  match queue.pending with
  | [] => throw .readyOwnsWork
  | job :: pending => return (job, { queue with pending, inFlight := true })

/-- The worker is done with the job. -/
def finish (job : IngestJob) : Except IngestAssertion InodeJobQueue := do
  require (queue.inFlight = false) .jobActive
  require (job.mutationSequence < queue.completedSequence) .completedMovesBackwards
  return { queue with inFlight := false, completedSequence := job.mutationSequence }

/-- The sequence that `wait_through` waits for once it has sealed the open batch. -/
def waitThrough (mutationSequence : ℕ) : ℕ := min queue.lastEnqueuedSequence mutationSequence

/-- The last finished job, without its fragments, and the jobs behind it. -/
def chain (running : Option IngestJob) : List IngestJob :=
  ⟨queue.completedSequence, .truncate⟩ :: (running.toList ++ queue.pending) ++
    (queue.batch.map OpenIngestBatch.intoJob).toList

end InodeJobQueue

/-- What can happen to the lane of an inode. -/
inductive IngestEvent where
  | sealBatch
  | truncate (mutationSequence : ℕ)
  | unbatched (fragment : IngestWriteFragment)
  | batched (fragment : IngestWriteFragment) (target : ℕ)
  | nextJob
  | finish

/-- The queue of an inode, the job a worker holds, and the fragments that were admitted and that
finished jobs processed, in order. -/
structure IngestLane where
  queue : InodeJobQueue := {}
  running : Option IngestJob := none
  admitted : List IngestWriteFragment := []
  processed : List IngestWriteFragment := []

namespace IngestLane

variable (lane : IngestLane)

/-- One event of the lane. -/
def step : IngestEvent → Except IngestAssertion IngestLane
  | .sealBatch => return { lane with queue := lane.queue.sealOpenIngestBatch }
  | .truncate mutationSequence => do
    return { lane with queue := ← lane.queue.enqueue ⟨mutationSequence, .truncate⟩ }
  | .unbatched fragment => do
    return { lane with
      queue := ← lane.queue.enqueue ⟨fragment.mutationSequence, .writeFragment fragment⟩
      admitted := lane.admitted ++ [fragment] }
  | .batched fragment target => do
    return { lane with
      queue := ← lane.queue.enqueueWriteFragment fragment target
      admitted := lane.admitted ++ [fragment] }
  | .nextJob => do
    let (job, queue) ← lane.queue.nextJob
    return { lane with queue, running := some job }
  | .finish => do
    let some job := lane.running | return lane
    return { lane with
      queue := ← lane.queue.finish job
      running := none
      processed := lane.processed ++ job.fragments }

/-- A fragment that begins a job is newer than everything enqueued before it. -/
def Careful : IngestEvent → Prop
  | .unbatched fragment => lane.queue.lastEnqueuedSequence < fragment.mutationSequence
  | .batched fragment target => lane.queue.lastEnqueuedSequence < fragment.mutationSequence ∨
    lane.queue.batch.isSome = true ∧ lane.queue.ingestFragmentExtendsBatch fragment target = true
  | _ => True

instance (event : IngestEvent) : Decidable (lane.Careful event) :=
  match event with
  | .unbatched _ => inferInstanceAs (Decidable (_ < _))
  | .batched _ _ => inferInstanceAs (Decidable (_ < _ ∨ _ = _ ∧ _ = _))
  | .sealBatch | .truncate _ | .nextJob | .finish => .isTrue trivial

end IngestLane

/-- The lanes of all inodes; an event is a call for one of them. -/
abbrev IngestLanes := ℕ → IngestLane

namespace IngestLanes

def step (lanes : IngestLanes) (event : ℕ × IngestEvent) : Except IngestAssertion IngestLanes := do
  return update lanes event.1 (← (lanes event.1).step event.2)

def run (lanes : IngestLanes) (events : List (ℕ × IngestEvent)) :
    Except IngestAssertion IngestLanes :=
  events.foldlM step lanes

def CarefulRun (lanes : IngestLanes) : List (ℕ × IngestEvent) → Prop
  | [] => True
  | event :: rest => (lanes event.1).Careful event.2 ∧
    ∀ next, lanes.step event = .ok next → CarefulRun next rest

instance decidableCarefulRun : (lanes : IngestLanes) → (events : List (ℕ × IngestEvent)) →
    Decidable (lanes.CarefulRun events)
  | _, [] => .isTrue trivial
  | lanes, event :: rest =>
    match stepped : lanes.step event with
    | .error _ => decidable_of_iff ((lanes event.1).Careful event.2)
        ⟨fun careful => ⟨careful, fun _ ok => nomatch stepped.symm.trans ok⟩, And.left⟩
    | .ok next =>
      have := decidableCarefulRun next rest
      decidable_of_iff ((lanes event.1).Careful event.2 ∧ next.CarefulRun rest)
        ⟨fun ⟨careful, later⟩ => ⟨careful, fun _ ok =>
            Except.ok.inj (stepped.symm.trans ok) ▸ later⟩,
          fun ⟨careful, later⟩ => ⟨careful, later next stepped⟩⟩

end IngestLanes

/-- Everything in the second job is later than the first. -/
def IngestJob.Precedes (first second : IngestJob) : Prop :=
  ∀ fragment ∈ second.fragments, first.mutationSequence < fragment.mutationSequence

namespace IngestLane

open InodeJobQueue (chain)

variable {lane next : IngestLane}

/-- The invariant of a lane: what was admitted is processed, running or queued, in this order. -/
structure Sound (lane : IngestLane) : Prop where
  held : lane.queue.inFlight = lane.running.isSome
  split : lane.admitted =
    lane.processed ++ (lane.queue.chain lane.running).flatMap IngestJob.fragments
  apart : (lane.queue.chain lane.running).Pairwise IngestJob.Precedes
  bounded : ∀ job ∈ lane.queue.chain lane.running,
    job.mutationSequence ≤ lane.queue.lastEnqueuedSequence
  known : ∀ fragment ∈ lane.admitted, fragment.mutationSequence ≤ lane.queue.lastEnqueuedSequence

/-- A call that leaves the jobs as they are. -/
theorem Sound.keep (sound : lane.Sound) (held : next.queue.inFlight = next.running.isSome)
    (chain : next.queue.chain next.running = lane.queue.chain lane.running)
    (last : next.queue.lastEnqueuedSequence = lane.queue.lastEnqueuedSequence)
    (admitted : next.admitted = lane.admitted) (processed : next.processed = lane.processed) :
    next.Sound := by
  rcases sound with ⟨_, split, apart, bounded, known⟩
  constructor
  · exact held
  · rw [admitted, processed, chain, split]
  · rwa [chain]
  · rwa [chain, last]
  · rwa [admitted, last]

/-- A job takes the last place. It holds the added fragments, alone or with those of the batch that
was there, and is newer than the jobs before it. -/
theorem Sound.push (sound : lane.Sound) (job : IngestJob) (front : List IngestJob)
    {added : List IngestWriteFragment} {queue : InodeJobQueue}
    (active : queue.inFlight = lane.queue.inFlight)
    (last : queue.lastEnqueuedSequence = job.mutationSequence)
    (grown : queue.chain lane.running = front ++ [job])
    (kept : front.Sublist (lane.queue.chain lane.running))
    (joined : (front ++ [job]).flatMap IngestJob.fragments =
      (lane.queue.chain lane.running).flatMap IngestJob.fragments ++ added)
    (newer : ∀ first ∈ front, first.Precedes job)
    (ordered : lane.queue.lastEnqueuedSequence ≤ job.mutationSequence)
    (within : ∀ fragment ∈ added, fragment.mutationSequence ≤ job.mutationSequence) :
    { lane with queue, admitted := lane.admitted ++ added }.Sound := by
  constructor
  · exact active.trans sound.held
  · rw [grown, joined, sound.split, append_assoc]
  · rw [grown, pairwise_append]
    refine ⟨sound.apart.sublist kept, pairwise_singleton .., fun first mem second same => ?_⟩
    exact mem_singleton.mp same ▸ newer first mem
  · intro other mem
    rw [last]
    rcases mem_append.mp (grown ▸ mem) with mem | same
    · exact (sound.bounded other (kept.mem mem)).trans ordered
    · rw [mem_singleton.mp same]
  · intro fragment mem
    rw [last]
    rcases mem_append.mp mem with mem | mem
    · exact (sound.known fragment mem).trans ordered
    · exact within fragment mem

theorem queue_sealed (queue : InodeJobQueue) (running : Option IngestJob) :
    queue.sealOpenIngestBatch.chain running = queue.chain running ∧
      queue.sealOpenIngestBatch.lastEnqueuedSequence = queue.lastEnqueuedSequence ∧
      queue.sealOpenIngestBatch.inFlight = queue.inFlight ∧
      queue.sealOpenIngestBatch.batch = none := by
  unfold InodeJobQueue.sealOpenIngestBatch
  cases opened : queue.batch with
  | none => exact ⟨rfl, rfl, rfl, opened⟩
  | some batch => simp [chain, opened]

theorem Sound.sealed (sound : lane.Sound) :
    { lane with queue := lane.queue.sealOpenIngestBatch }.Sound := by
  rcases queue_sealed lane.queue lane.running with ⟨chain, last, active, _⟩
  exact sound.keep (active.trans sound.held) chain last rfl rfl

theorem Sound.enqueue {job : IngestJob} {queue : InodeJobQueue} (sound : lane.Sound)
    (newer : ∀ fragment ∈ job.fragments,
      lane.queue.lastEnqueuedSequence < fragment.mutationSequence ∧
        fragment.mutationSequence ≤ job.mutationSequence)
    (ran : lane.queue.enqueue job = .ok queue) :
    { lane with queue, admitted := lane.admitted ++ job.fragments }.Sound := by
  rcases bind_ok.mp ran with ⟨_, ordered, ran⟩
  rcases queue_sealed lane.queue lane.running with ⟨_, last, _, closed⟩
  cases ran
  have sealed := sound.sealed
  rw [← last] at newer
  refine sealed.push job _ (by rfl) rfl ?_ (.refl _) (by simp) ?_ ?_ ?_
  · simp [chain, closed]
  · intro first mem fragment inside
    exact (sealed.bounded first mem).trans_lt (newer fragment inside).1
  · exact not_lt.mp (require_ok.mp ordered)
  · exact fun fragment inside => (newer fragment inside).2

theorem queue_admitted (queue : InodeJobQueue) (running : Option IngestJob)
    (fragment : IngestWriteFragment) (target : ℕ) :
    (queue.admitFragment fragment target).chain running =
        ⟨queue.completedSequence, .truncate⟩ :: (running.toList ++ queue.pending) ++
          [⟨fragment.mutationSequence,
            .writeBatch (queue.batch.elim [] (·.fragments) ++ [fragment])⟩] ∧
      (queue.admitFragment fragment target).lastEnqueuedSequence = fragment.mutationSequence ∧
      (queue.admitFragment fragment target).inFlight = queue.inFlight := by
  unfold InodeJobQueue.admitFragment
  dsimp only
  split
  · simp [queue_sealed _ running]
    simp [chain, OpenIngestBatch.intoJob]
  · simp [chain, OpenIngestBatch.intoJob]

/-- A fragment that joins a batch is newer than the jobs before it, as the batch is. -/
theorem Sound.admitFragment {fragment : IngestWriteFragment} (target : ℕ) (sound : lane.Sound)
    (ordered : lane.queue.lastEnqueuedSequence ≤ fragment.mutationSequence)
    (newer : lane.queue.batch = none →
      lane.queue.lastEnqueuedSequence < fragment.mutationSequence) : { lane with
      queue := lane.queue.admitFragment fragment target
      admitted := lane.admitted ++ [fragment] }.Sound := by
  rcases queue_admitted lane.queue lane.running fragment target with ⟨grown, last, active⟩
  refine sound.push _ _ active last grown (sublist_append_left ..) ?_ ?_ ordered (by simp)
  · cases opened : lane.queue.batch <;>
      simp [chain, IngestJob.fragments, OpenIngestBatch.intoJob, opened]
  · intro first mem other inside
    cases opened : lane.queue.batch with
    | none =>
      simp only [opened, IngestJob.fragments, Option.elim_none, nil_append, mem_singleton] at inside
      exact inside ▸ (sound.bounded first (mem_append_left _ mem)).trans_lt (newer opened)
    | some batch =>
      have precedes := (pairwise_append.mp sound.apart).2.2 first mem batch.intoJob
        (by simp [opened])
      simp only [opened, IngestJob.fragments, Option.elim_some, mem_append, mem_singleton] at inside
      rcases inside with inside | rfl
      · exact precedes other inside
      · rcases exists_mem_of_ne_nil _ batch.nonempty with ⟨found, inside⟩
        have known := sound.known found (by
          simp [sound.split, chain, opened, IngestJob.fragments, OpenIngestBatch.intoJob, inside])
        exact (precedes found inside).trans_le (known.trans ordered)

/-- No event loses, repeats or reorders a fragment. -/
theorem Sound.step {event : IngestEvent} (sound : lane.Sound) (careful : lane.Careful event)
    (ran : lane.step event = .ok next) : next.Sound := by
  cases event with
  | sealBatch =>
    cases ran
    exact sound.sealed
  | truncate mutationSequence =>
    rcases bind_ok.mp ran with ⟨queue, enqueued, stepped⟩
    cases stepped
    simpa [IngestJob.fragments] using sound.enqueue (by simp [IngestJob.fragments]) enqueued
  | unbatched fragment =>
    rcases bind_ok.mp ran with ⟨queue, enqueued, stepped⟩
    cases stepped
    refine sound.enqueue (fun other same => ?_) enqueued
    cases mem_singleton.mp same
    exact ⟨careful, le_rfl⟩
  | batched fragment target =>
    rcases bind_ok.mp ran with ⟨queue, admitted, stepped⟩
    cases stepped
    rcases bind_ok.mp admitted with ⟨_, ordered, admitted⟩
    have ordered := not_lt.mp (require_ok.mp ordered)
    rcases queue_sealed lane.queue lane.running with ⟨_, last, _, _⟩
    split at admitted
    · cases admitted
      refine sound.admitFragment target ordered fun absent => ?_
      simpa [Careful, absent] using careful
    · rename_i fresh
      cases admitted
      refine sound.sealed.admitFragment target (last.trans_le ordered) fun _ => last.trans_lt ?_
      exact careful.resolve_right fun both => fresh both.2
  | nextJob =>
    rcases bind_ok.mp ran with ⟨⟨job, queue⟩, taken, stepped⟩
    rcases bind_ok.mp taken with ⟨_, idle, taken⟩
    have idle := require_ok.mp idle
    split at taken
    · cases taken
    · rename_i pending waiting
      cases taken
      cases stepped
      have none := Option.not_isSome_iff_eq_none.mp (sound.held ▸ idle)
      exact sound.keep rfl (by simp [chain, none, waiting]) rfl rfl rfl
  | finish =>
    cases running : lane.running with
    | none =>
      simp only [IngestLane.step, running] at ran
      cases ran
      exact sound
    | some job =>
      simp only [IngestLane.step, running] at ran
      rcases bind_ok.mp ran with ⟨queue, finished, stepped⟩
      cases stepped
      rcases bind_ok.mp finished with ⟨_, _, finished⟩
      rcases bind_ok.mp finished with ⟨_, _, finished⟩
      cases finished
      rcases sound with ⟨_, split, apart, bounded, known⟩
      rw [chain, running] at split apart bounded
      rcases pairwise_cons.mp apart with ⟨_, apart⟩
      rcases pairwise_cons.mp apart with ⟨precedes, apart⟩
      constructor
      · rfl
      · simpa [chain, IngestJob.fragments] using split
      · exact pairwise_cons.mpr ⟨precedes, apart⟩
      · intro other mem
        rcases mem_cons.mp mem with rfl | mem
        · exact bounded job (by simp)
        · exact bounded other (mem_cons_of_mem _ (mem_cons_of_mem job mem))
      · exact known

theorem step_admitted {event : IngestEvent} (ran : lane.step event = .ok next) :
    lane.admitted <+: next.admitted := by
  cases event with
  | sealBatch =>
    cases ran
    exact prefix_rfl
  | truncate | unbatched | batched | nextJob =>
    rcases bind_ok.mp ran with ⟨_, _, stepped⟩
    cases stepped
    simp
  | finish =>
    simp only [IngestLane.step] at ran
    split at ran
    · rcases bind_ok.mp ran with ⟨_, _, stepped⟩
      cases stepped
      exact prefix_rfl
    · cases ran
      exact prefix_rfl

end IngestLane

namespace IngestLanes

variable {lanes next : IngestLanes}

theorem sound_of_carefulRun {events : List (ℕ × IngestEvent)} (sound : ∀ inode, (lanes inode).Sound)
    (careful : lanes.CarefulRun events) (ran : lanes.run events = .ok next) (inode : ℕ) :
    (next inode).Sound ∧ (lanes inode).admitted <+: (next inode).admitted := by
  induction events generalizing lanes with
  | nil =>
    cases ran
    exact ⟨sound inode, prefix_rfl⟩
  | cons event rest ih =>
    rcases bind_ok.mp ran with ⟨middle, stepped, ran⟩
    have later := careful.2 middle stepped
    rcases bind_ok.mp stepped with ⟨lane, moved, placed⟩
    cases placed
    have kept (other : ℕ) : (update lanes event.1 lane other).Sound ∧
        (lanes other).admitted <+: (update lanes event.1 lane other).admitted := by
      by_cases same : other = event.1
      · subst same
        simpa using ⟨(sound event.1).step careful.1 moved, IngestLane.step_admitted moved⟩
      · simpa [same] using sound other
    rcases ih (fun other => (kept other).1) later ran with ⟨sound, grown⟩
    exact ⟨sound, (kept inode).2.trans grown⟩

end IngestLanes

/-- When `wait_through` returns, finished jobs have processed every fragment up to its sequence that
was admitted before the call, in every run in which a fragment that begins a job is newer than what
was enqueued before it. -/
theorem waitThrough_covers_of_carefulRun {events later : List (ℕ × IngestEvent)}
    {before after : IngestLanes} (inode mutationSequence : ℕ)
    (careful : IngestLanes.CarefulRun (fun _ => {}) events)
    (ran : IngestLanes.run (fun _ => {}) events = .ok before)
    (carefulLater : before.CarefulRun ((inode, .sealBatch) :: later))
    (ranLater : before.run ((inode, .sealBatch) :: later) = .ok after)
    (returned : (before inode).queue.waitThrough mutationSequence ≤
      (after inode).queue.completedSequence)
    (position : ℕ) {fragment : IngestWriteFragment}
    (admitted : (before inode).admitted[position]? = some fragment)
    (covered : fragment.mutationSequence ≤ mutationSequence) :
    (after inode).processed[position]? = some fragment := by
  have initial (inode : ℕ) : ((fun _ => {} : IngestLanes) inode).Sound := by
    constructor <;> simp [InodeJobQueue.chain, IngestJob.fragments]
  have sound := fun other => (IngestLanes.sound_of_carefulRun initial careful ran other).1
  rcases IngestLanes.sound_of_carefulRun sound carefulLater ranLater inode with ⟨ended, rest, grown⟩
  have found : (after inode).admitted[position]? = some fragment := by
    rw [← grown]
    exact (getElem?_append_left (List.getElem?_eq_some_iff.mp admitted).1).trans admitted
  rw [ended.split, getElem?_append] at found
  split at found
  · exact found
  · -- a fragment that still waits is newer than the last finished job
    rcases mem_flatMap.mp (mem_of_getElem? found) with ⟨job, listed, inside⟩
    have newer : (after inode).queue.completedSequence < fragment.mutationSequence := by
      rcases mem_cons.mp listed with rfl | listed
      · cases inside
      · exact (pairwise_cons.mp ended.apart).1 job listed fragment inside
    have known := (sound inode).known fragment (mem_of_getElem? admitted)
    exact absurd (returned.trans_lt newer) (not_lt.mpr (le_min known covered))

/-- Both fragments of a write share a batch; a write to another inode, a truncation and a newer
fragment follow. -/
def batchedWrite : List (ℕ × IngestEvent) :=
  (enqueueWrite 0 1 .data (WRITE_THROUGH_FRAGMENT_MAX_BYTES_V1 + 1)).map (fun fragment =>
    (1, .batched fragment (2 * WRITE_THROUGH_FRAGMENT_MAX_BYTES_V1))) ++
  [(2, .unbatched ⟨0, 7, 4, .data⟩), (1, .truncate 2), (1, .batched ⟨0, 5, 3, .data⟩ 8)]

/-- Two workers finish the batch and the truncation while the other inode is written again. -/
def batchedJobs : List (ℕ × IngestEvent) :=
  [(1, .nextJob), (2, .nextJob), (1, .finish), (2, .unbatched ⟨7, 9, 5, .data⟩), (1, .nextJob),
    (2, .finish), (1, .finish)]

/-- A fence through the truncation covers both fragments of the write; the newer one still waits. -/
theorem waitThrough_covers_of_carefulRun_sample : ∃ before after : IngestLanes,
    IngestLanes.run (fun _ => {}) batchedWrite = .ok before ∧
      before.run ((1, .sealBatch) :: batchedJobs) = .ok after ∧
      (before 1).admitted.length = 3 ∧ (after 1).processed.length = 2 ∧
      (after 1).processed[0]? = some ⟨0, WRITE_THROUGH_FRAGMENT_MAX_BYTES_V1, 1, .data⟩ ∧
      (after 1).processed[1]? = some ⟨WRITE_THROUGH_FRAGMENT_MAX_BYTES_V1, 1, 1, .data⟩ := by
  have careful : IngestLanes.CarefulRun (fun _ => {}) batchedWrite := by decide +kernel
  refine ⟨_, _, rfl, rfl, rfl, rfl, ?_⟩
  have covers (position : ℕ) (fragment : IngestWriteFragment) :=
    @waitThrough_covers_of_carefulRun batchedWrite batchedJobs _ _ 1 2 careful rfl
      (by decide +kernel) rfl (by decide +kernel) position fragment
  exact ⟨covers 0 _ rfl (by decide +kernel), covers 1 _ rfl (by decide +kernel)⟩

/-- A worker takes and finishes one job of an inode. -/
def stagedJob (inode : ℕ) : List (ℕ × IngestEvent) :=
  [(inode, .sealBatch), (inode, .nextJob), (inode, .finish)]

/-- A write in two fragments while another inode is written too. -/
def splitWrite : List (ℕ × IngestEvent) :=
  (enqueueWrite 0 1 .data (WRITE_THROUGH_FRAGMENT_MAX_BYTES_V1 + 1)).map fun fragment =>
    (1, .unbatched fragment)

/-- The job of the first fragment completes the sequence of the second one. -/
theorem split_write_passes_fence : ∃ before after,
    IngestLanes.run (fun _ => {}) splitWrite = .ok before ∧
      before.run (stagedJob 1) = .ok after ∧
      (before 1).queue.waitThrough 1 ≤ (after 1).queue.completedSequence ∧
      (before 1).admitted.length = 2 ∧ (after 1).processed.length = 1 :=
  ⟨_, _, rfl, rfl, by decide, by decide, by decide⟩

namespace IngestLane

variable {lane next : IngestLane}

/-- The fragments of the running job, of the jobs behind it and of the open batch. -/
def waiting (lane : IngestLane) : List IngestWriteFragment :=
  (lane.queue.chain lane.running).flatMap IngestJob.fragments

/-- What was admitted has been processed or waits, in this order. -/
structure Delivers (lane : IngestLane) : Prop where
  held : lane.queue.inFlight = lane.running.isSome
  split : lane.admitted = lane.processed ++ lane.waiting

theorem Delivers.step {event : IngestEvent} (delivers : lane.Delivers)
    (ran : lane.step event = .ok next) : next.Delivers := by
  rcases delivers with ⟨held, split⟩
  rw [waiting] at split
  rcases queue_sealed lane.queue lane.running with ⟨same, _, active, closed⟩
  cases event with
  | sealBatch =>
    cases ran
    exact ⟨active.trans held, by rw [waiting, same, split]⟩
  | truncate | unbatched =>
    rcases bind_ok.mp ran with ⟨queue, added, stepped⟩
    rcases bind_ok.mp added with ⟨_, _, added⟩
    cases stepped
    cases added
    refine ⟨active.trans held, ?_⟩
    rw [split, ← same]
    simp [waiting, InodeJobQueue.chain, closed, IngestJob.fragments]
  | batched fragment target =>
    rcases bind_ok.mp ran with ⟨queue, added, stepped⟩
    rcases bind_ok.mp added with ⟨_, _, added⟩
    cases stepped
    have admitted (queue : InodeJobQueue) (active : queue.inFlight = lane.queue.inFlight)
        (same : queue.chain lane.running = lane.queue.chain lane.running) :
        { lane with queue := queue.admitFragment fragment target
                    admitted := lane.admitted ++ [fragment] }.Delivers := by
      rcases queue_admitted queue lane.running fragment target with ⟨grown, _, kept⟩
      refine ⟨kept.trans (active.trans held), ?_⟩
      rw [waiting, grown, split, ← same]
      cases opened : queue.batch <;>
        simp [InodeJobQueue.chain, IngestJob.fragments, OpenIngestBatch.intoJob, opened]
    split at added
    · cases added
      exact admitted _ rfl rfl
    · cases added
      exact admitted _ active same
  | nextJob =>
    rcases bind_ok.mp ran with ⟨⟨job, queue⟩, taken, stepped⟩
    rcases bind_ok.mp taken with ⟨_, idle, taken⟩
    have none := Option.not_isSome_iff_eq_none.mp (held ▸ require_ok.mp idle)
    split at taken
    · cases taken
    · rename_i pending listed
      cases taken
      cases stepped
      exact ⟨rfl, by simpa [waiting, InodeJobQueue.chain, none, listed] using split⟩
  | finish =>
    cases running : lane.running with
    | none =>
      simp only [IngestLane.step, running] at ran
      cases ran
      exact ⟨held, split⟩
    | some job =>
      simp only [IngestLane.step, running] at ran
      rcases bind_ok.mp ran with ⟨queue, finished, stepped⟩
      rcases bind_ok.mp finished with ⟨_, _, finished⟩
      rcases bind_ok.mp finished with ⟨_, _, finished⟩
      cases stepped
      cases finished
      exact ⟨rfl, by
        simpa [waiting, InodeJobQueue.chain, running, IngestJob.fragments] using split⟩

end IngestLane

/-- However the calls of all inodes interleave, no admitted fragment is lost, repeated or overtaken:
what was admitted for an inode has been processed, in order, up to what waits in its jobs. -/
theorem fragments_delivered_once (events : List (ℕ × IngestEvent)) {lanes : IngestLanes}
    (ran : IngestLanes.run (fun _ => {}) events = .ok lanes) (inode : ℕ) :
    (lanes inode).admitted = (lanes inode).processed ++ (lanes inode).waiting := by
  have steps : ∀ state, ∀ event ∈ events, ∀ next, (∀ inode, (state inode).Delivers) →
      IngestLanes.step state event = .ok next → ∀ inode, (next inode).Delivers := by
    intro state event _ next delivers stepped inode
    rcases bind_ok.mp stepped with ⟨lane, moved, placed⟩
    cases placed
    by_cases same : inode = event.1
    · subst same
      simpa using (delivers event.1).step moved
    · simpa [same] using delivers inode
  exact (foldlM_keeps steps (fun _ => ⟨rfl, rfl⟩) ran inode).split

/-- Also of a write in two fragments, of which one has been processed. -/
theorem fragments_delivered_of_splitWrite : ∃ lanes : IngestLanes,
    IngestLanes.run (fun _ => {}) (splitWrite ++ stagedJob 1) = .ok lanes ∧
      (lanes 1).processed.length = 1 ∧
      (lanes 1).admitted = (lanes 1).processed ++ (lanes 1).waiting :=
  ⟨_, rfl, rfl, fragments_delivered_once (splitWrite ++ stagedJob 1) rfl 1⟩

end Fastdup.Appliance
