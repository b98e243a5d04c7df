import Fastdup.Library.Checked
import Fastdup.Library.SortedMap
import Mathlib.Logic.Function.Basic

/-!
# The publication queue

Publishers take the detached Container works of an inode in order, publish them side by side and
retire them in order. The calls of all inodes interleave, each under the lock of the queue.

The byte budget only decides when a work is admitted, and the ready list which inode a publisher
tries next; both are left open. Ordinals stay below `u64::MAX`.
-/

namespace Fastdup.Appliance

open Library Checked Function List SortedMap

def SINGLE_STREAM_PUBLICATION_WINDOW_V1 : ℕ := 2

/-- The chunks are given by their sequences; the constructor asserts that there is one. -/
structure DetachedContainerWork where
  throughSequence : ℕ
  publicationOrdinal : ℕ := 0
  firstChunkSequence : ℕ
  chunks : List ℕ
  first : chunks.min? = some firstChunkSequence

/-- The Container work of one inode: pending, in flight, and the next ordinal to retire. -/
structure InodePublicationQueue where
  pending : List DetachedContainerWork := []
  inFlight : SortedMap ℕ ℕ := .empty
  nextPublicationOrdinal : ℕ := 0
  nextRetirementOrdinal : ℕ := 0
  lastEnqueuedSequence : ℕ := 0

/-- The assertions of the queue, each of which would panic the appliance. -/
inductive PublicationAssertion where
  | sequenceMovesBackwards
  | ordinalUnique
  | activeSequence
  | retirementOrder

namespace InodePublicationQueue

variable (queue : InodePublicationQueue)

/-- Work gets the next ordinal, in mutation order. -/
def enqueue (work : DetachedContainerWork) :
    Except PublicationAssertion (DetachedContainerWork × InodePublicationQueue) := do
  require (work.throughSequence < queue.lastEnqueuedSequence) .sequenceMovesBackwards
  let work := { work with publicationOrdinal := queue.nextPublicationOrdinal }
  return (work, { queue with
    lastEnqueuedSequence := work.throughSequence
    nextPublicationOrdinal := queue.nextPublicationOrdinal + 1
    pending := queue.pending ++ [work] })

/-- The turn of a ready inode in the loop of `next_work`. -/
def nextWork (perInodeLimit : ℕ) :
    Except PublicationAssertion (Option DetachedContainerWork × InodePublicationQueue) :=
  match queue.pending with
  | [] => return (none, queue)
  | work :: pending =>
    if perInodeLimit ≤ queue.inFlight.pairs.length then return (none, queue)
    else do
      require ((queue.inFlight.get? work.publicationOrdinal).isSome = true) .ordinalUnique
      return (some work, { queue with
        pending
        inFlight := queue.inFlight.insert work.publicationOrdinal work.firstChunkSequence })

/-- Work retires in the order of its ordinals. -/
def finish (work : DetachedContainerWork) : Except PublicationAssertion InodePublicationQueue := do
  require (queue.inFlight.get? work.publicationOrdinal ≠ some work.firstChunkSequence)
    .activeSequence
  require (queue.nextRetirementOrdinal ≠ work.publicationOrdinal) .retirementOrder
  return { queue with
    inFlight := queue.inFlight.remove work.publicationOrdinal
    nextRetirementOrdinal := queue.nextRetirementOrdinal + 1 }

def requiredOrdinals (throughSequence : ℕ) : List ℕ :=
  (queue.inFlight.pairs.filter (·.2 ≤ throughSequence)).map Prod.fst ++
    (queue.pending.filter (·.firstChunkSequence ≤ throughSequence)).map (·.publicationOrdinal)

/-- The ordinal that `wait_through` waits for. -/
def publicationFence (throughSequence : ℕ) : ℕ :=
  (queue.requiredOrdinals throughSequence).max?.elim 0 (· + 1)

end InodePublicationQueue

/-- What can happen to the publication lane of an inode. -/
inductive PublicationEvent where
  | enqueue (work : DetachedContainerWork)
  | nextWork
  | retirementTurn (ordinal : ℕ)
  | finish (ordinal : ℕ)

/-- The queue of an inode with its works, enqueued and retired, and those that publishers hold by
ordinal, marked when `wait_for_retirement_turn` has returned. -/
structure PublicationLane where
  queue : InodePublicationQueue := {}
  enqueued : List DetachedContainerWork := []
  retired : List DetachedContainerWork := []
  held : ℕ → Option (DetachedContainerWork × Bool) := fun _ => none

namespace PublicationLane

variable (lane : PublicationLane)

def step (perInodeLimit : ℕ) : PublicationEvent → Except PublicationAssertion PublicationLane
  | .enqueue work => do
    let (work, queue) ← lane.queue.enqueue work
    return { lane with queue, enqueued := lane.enqueued ++ [work] }
  | .nextWork => do
    match ← lane.queue.nextWork perInodeLimit with
    | (none, _) => return lane
    | (some work, queue) =>
      return { lane with
        queue, held := update lane.held work.publicationOrdinal (some (work, false)) }
  | .retirementTurn ordinal => return { lane with
      held := update lane.held ordinal ((lane.held ordinal).map fun (work, turn) =>
        (work, turn || decide (lane.queue.nextRetirementOrdinal = ordinal))) }
  | .finish ordinal =>
    match lane.held ordinal with
    | some (work, true) => do
      return { lane with
        queue := ← lane.queue.finish work
        retired := lane.retired ++ [work]
        held := update lane.held ordinal none }
    | _ => return lane

/-- What the queue knows of its works, of which `dispatched` are no longer pending. -/
structure Sound (lane : PublicationLane) (dispatched : ℕ) : Prop where
  publication : lane.queue.nextPublicationOrdinal = lane.enqueued.length
  retirement : lane.queue.nextRetirementOrdinal ≤ dispatched
  bounded : dispatched ≤ lane.enqueued.length
  pending : lane.queue.pending = lane.enqueued.drop dispatched
  retired : lane.retired = lane.enqueued.take lane.queue.nextRetirementOrdinal
  named : ∀ (n : ℕ) work, lane.enqueued[n]? = some work → work.publicationOrdinal = n
  inFlight : ∀ n, lane.queue.inFlight.get? n =
    if lane.queue.nextRetirementOrdinal ≤ n ∧ n < dispatched then
      lane.enqueued[n]?.map (·.firstChunkSequence) else none
  held : ∀ n work turn, lane.held n = some (work, turn) →
    lane.queue.nextRetirementOrdinal ≤ n ∧ n < dispatched ∧ lane.enqueued[n]? = some work ∧
      (turn = true → n = lane.queue.nextRetirementOrdinal)
  window : lane.queue.inFlight.pairs.length ≤ SINGLE_STREAM_PUBLICATION_WINDOW_V1

/-- The histories only grow, and retirement only advances. -/
def Grows (lane next : PublicationLane) : Prop :=
  lane.enqueued <+: next.enqueued ∧
    lane.queue.nextRetirementOrdinal ≤ next.queue.nextRetirementOrdinal

/-- What one event does to a lane that keeps its invariant. -/
structure Follows (lane : PublicationLane) (limit : ℕ) (event : PublicationEvent)
    (next : PublicationLane) : Prop where
  sound : ∃ dispatched, next.Sound dispatched
  grows : lane.Grows next
  window : next.queue.inFlight.pairs.length ≤ max lane.queue.inFlight.pairs.length limit
  last : ∀ sequence, (∀ work, event = .enqueue work → work.throughSequence ≤ sequence) →
    lane.queue.lastEnqueuedSequence ≤ sequence → next.queue.lastEnqueuedSequence ≤ sequence

def Steps (limit : ℕ) (event : PublicationEvent) : Prop :=
  ∃ next, lane.step limit event = .ok next ∧ lane.Follows limit event next

variable {lane} {dispatched limit : ℕ}

theorem Sound.stay (sound : lane.Sound dispatched) (event : PublicationEvent) :
    lane.Follows limit event lane :=
  ⟨⟨dispatched, sound⟩, ⟨prefix_rfl, le_rfl⟩, le_max_left .., fun _ _ => id⟩

theorem Sound.enqueue (sound : lane.Sound dispatched) {work : DetachedContainerWork}
    (ordered : lane.queue.lastEnqueuedSequence ≤ work.throughSequence) :
    lane.Steps limit (.enqueue work) := by
  have inside := sound.bounded
  have before := sound.retirement
  have kept (n : ℕ) (within : n < dispatched) (added : List DetachedContainerWork) :
      (lane.enqueued ++ added)[n]? = lane.enqueued[n]? := getElem?_append_left (by omega)
  simp only [Steps, step, InodePublicationQueue.enqueue, require,
    if_neg (not_lt.mpr ordered), ok_bind]
  refine ⟨_, rfl, ⟨dispatched, ?_⟩, ⟨prefix_append .., le_rfl⟩, le_max_left ..,
    fun _ least _ => least work rfl⟩
  constructor
  · simp [sound.publication]
  · exact before
  · simp
    omega
  · simp [sound.pending, drop_append_of_le_length inside]
  · simp [sound.retired, take_append_of_le_length (before.trans inside)]
  · intro n other found
    have := sound.publication
    have := sound.named n other
    grind
  · intro n
    rw [sound.inFlight]
    split <;> simp_all
  · intro n other turn holds
    rcases sound.held n other turn holds with ⟨first, second, third⟩
    exact ⟨first, second, (kept n second _).symm ▸ third⟩
  · exact sound.window

theorem Sound.nextWork (sound : lane.Sound dispatched)
    (within : limit ≤ SINGLE_STREAM_PUBLICATION_WINDOW_V1) : lane.Steps limit .nextWork := by
  simp only [Steps, step, InodePublicationQueue.nextWork]
  cases waiting : lane.queue.pending with
  | nil => exact ⟨lane, rfl, sound.stay _⟩
  | cons work pending =>
    split_ifs with full
    · exact ⟨lane, rfl, sound.stay _⟩
    · have split := sound.pending.symm.trans waiting
      have found : lane.enqueued[dispatched]? = some work := by
        rw [← head?_drop, split, head?_cons]
      have named := sound.named _ _ found
      have fresh : lane.queue.inFlight.get? work.publicationOrdinal = none := by
        simp [sound.inFlight, named]
      have grown := @length_insert _ _ _ _ _ _ _ _ lane.queue.inFlight
        work.publicationOrdinal work.firstChunkSequence
      simp only [fresh, Option.isSome_none, Bool.false_eq_true, if_false] at grown
      simp only [fresh, require, Option.isSome_none, Bool.false_eq_true, if_false, ok_bind]
      refine ⟨_, rfl, ⟨dispatched + 1, ?_⟩, ⟨prefix_rfl, le_rfl⟩, ?_, fun _ _ => id⟩
      · refine { sound with
          retirement := ?_, bounded := ?_, pending := ?_, inFlight := ?_, held := ?_, window := ?_ }
        · exact sound.retirement.trans dispatched.le_succ
        · exact (List.getElem?_eq_some_iff.mp found).1
        · rw [← tail_drop, split, tail_cons]
        · intro n
          have := sound.retirement
          simp only [get?_insert, sound.inFlight, named]
          grind
        · intro n other turn holds
          simp only [update_apply] at holds
          split_ifs at holds with same
          · cases holds
            rw [same, named]
            exact ⟨sound.retirement, dispatched.lt_succ_self, found, by simp⟩
          · rcases sound.held n other turn holds with ⟨first, second, third⟩
            exact ⟨first, second.trans dispatched.lt_succ_self, third⟩
        · dsimp only
          omega
      · dsimp only
        omega

theorem Sound.finish (sound : lane.Sound dispatched) (ordinal : ℕ) :
    lane.Steps limit (.finish ordinal) := by
  simp only [Steps, step]
  split
  · rename_i work holds
    rcases sound.held _ _ _ holds with ⟨_, pending, found, turn⟩
    have now := turn rfl
    subst now
    have named := sound.named _ _ found
    have first := sound.inFlight work.publicationOrdinal
    rw [named, if_pos ⟨le_rfl, pending⟩, found, Option.map_some] at first
    simp only [InodePublicationQueue.finish, require, named, first, ne_eq, not_true,
      if_false, ok_bind]
    refine ⟨_, rfl, ⟨dispatched, ?_⟩, ⟨prefix_rfl, Nat.le_succ _⟩, ?_, fun _ _ => id⟩
    · refine { sound with
        retirement := pending, retired := ?_, inFlight := ?_, held := ?_, window := ?_ }
      · simp [sound.retired, take_add_one, found]
      · intro n
        simp only [get?_remove, sound.inFlight]
        split_ifs <;> first | rfl | omega
      · intro n other turn holds
        simp only [update_apply] at holds
        split_ifs at holds with different
        rcases sound.held n other turn holds with ⟨first, second, third, last⟩
        exact ⟨by dsimp; omega, second, third, fun marked => absurd (last marked) different⟩
      · exact (length_filter_le ..).trans sound.window
    · exact (length_filter_le ..).trans (le_max_left ..)
  · exact ⟨lane, rfl, sound.stay _⟩

theorem Sound.retirementTurn (sound : lane.Sound dispatched) (ordinal : ℕ) :
    lane.Steps limit (.retirementTurn ordinal) := by
  refine ⟨_, rfl, ⟨dispatched, { sound with held := ?_ }⟩, ⟨prefix_rfl, le_rfl⟩, le_max_left ..,
    fun _ _ => id⟩
  intro n other turn holds
  simp only [update_apply] at holds
  split_ifs at holds with same
  · rcases Option.map_eq_some_iff.mp holds with ⟨⟨work, marked⟩, before, marks⟩
    have := sound.held _ _ _ before
    grind
  · exact sound.held n other turn holds

/-- Works that arrive in order never fail an assertion. -/
theorem Sound.step (sound : lane.Sound dispatched)
    (within : limit ≤ SINGLE_STREAM_PUBLICATION_WINDOW_V1) (event : PublicationEvent)
    (ordered : ∀ work, event = .enqueue work →
      lane.queue.lastEnqueuedSequence ≤ work.throughSequence) : lane.Steps limit event := by
  cases event with
  | enqueue work => exact sound.enqueue (ordered work rfl)
  | nextWork => exact sound.nextWork within
  | retirementTurn ordinal => exact sound.retirementTurn ordinal
  | finish ordinal => exact sound.finish ordinal

/-- The fence lies behind every work with an early chunk that has not retired. -/
theorem Sound.lt_publicationFence (sound : lane.Sound dispatched) {position sequence chunk : ℕ}
    {work : DetachedContainerWork} (found : lane.enqueued[position]? = some work)
    (mem : chunk ∈ work.chunks) (early : chunk ≤ sequence)
    (waiting : lane.queue.nextRetirementOrdinal ≤ position) :
    position < lane.queue.publicationFence sequence := by
  have first : work.firstChunkSequence ≤ sequence :=
    ((min?_eq_some_iff.mp work.first).2 chunk mem).trans early
  have listed : position ∈ lane.queue.requiredOrdinals sequence := by
    by_cases taken : position < dispatched
    · have active := sound.inFlight position
      rw [if_pos ⟨waiting, taken⟩, found, Option.map_some] at active
      refine mem_append_left _ (mem_map.mpr ⟨(position, work.firstChunkSequence), ?_, rfl⟩)
      simpa using ⟨mem_of_get?_eq_some active, first⟩
    · refine mem_append_right _ (mem_map.mpr ⟨work, ?_, sound.named _ _ found⟩)
      have behind : lane.queue.pending[position - dispatched]? = some work := by
        rw [sound.pending, getElem?_drop, ← found]
        congr 1
        omega
      simpa using ⟨mem_of_getElem? behind, first⟩
  unfold InodePublicationQueue.publicationFence
  cases top : (lane.queue.requiredOrdinals sequence).max? with
  | none =>
    rw [max?_eq_none_iff.mp top] at listed
    cases listed
  | some last => exact Nat.lt_succ_of_le ((max?_eq_some_iff.mp top).2 position listed)

end PublicationLane

abbrev PublicationLanes := SortedMap ℕ PublicationLane

namespace PublicationLanes

variable (lanes : PublicationLanes)

def lane (inode : ℕ) : PublicationLane := (lanes.get? inode).getD {}

/-- A single active inode may have two works in flight; several have one each. -/
def publicationWindow : ℕ :=
  let activeInodes := lanes.pairs.countP fun pair =>
    !pair.2.queue.pending.isEmpty || !pair.2.queue.inFlight.pairs.isEmpty
  if activeInodes ≤ 1 then SINGLE_STREAM_PUBLICATION_WINDOW_V1 else 1

def step (event : ℕ × PublicationEvent) : Except PublicationAssertion PublicationLanes := do
  let lane ← (lanes.lane event.1).step lanes.publicationWindow event.2
  return SortedMap.insert event.1 lane lanes

def run (events : List (ℕ × PublicationEvent)) : Except PublicationAssertion PublicationLanes :=
  events.foldlM step lanes

def Sound : Prop := ∀ inode, ∃ dispatched, (lanes.lane inode).Sound dispatched

/-- The works of an inode are enqueued with nondecreasing sequences. -/
def Nondecreasing (events : List (ℕ × PublicationEvent)) : Prop :=
  events.Pairwise fun first second => first.1 = second.1 → ∀ early late,
    first.2 = .enqueue early → second.2 = .enqueue late →
      early.throughSequence ≤ late.throughSequence

def Accepts (events : List (ℕ × PublicationEvent)) : Prop :=
  ∀ event ∈ events, ∀ work, event.2 = .enqueue work →
    (lanes.lane event.1).queue.lastEnqueuedSequence ≤ work.throughSequence

variable {lanes} {events later : List (ℕ × PublicationEvent)}

theorem publicationWindow_le : lanes.publicationWindow ≤ SINGLE_STREAM_PUBLICATION_WINDOW_V1 := by
  unfold publicationWindow
  dsimp only
  split <;> decide

theorem step_follows {event : ℕ × PublicationEvent} (sound : lanes.Sound)
    (ordered : ∀ work, event.2 = .enqueue work →
      (lanes.lane event.1).queue.lastEnqueuedSequence ≤ work.throughSequence) :
    ∃ next, lanes.step event = .ok next ∧
      (lanes.lane event.1).Follows lanes.publicationWindow event.2 (next.lane event.1) ∧
      ∀ other, other ≠ event.1 → next.lane other = lanes.lane other := by
  rcases sound event.1 with ⟨dispatched, own⟩
  rcases own.step publicationWindow_le event.2 ordered with ⟨next, stepped, follows⟩
  refine ⟨insert event.1 next lanes, ?_, ?_, fun other different => ?_⟩
  · rw [step, stepped]
    rfl
  · simpa [lane, get?_insert] using follows
  · simp [lane, get?_insert, different]

theorem run_follows (sound : lanes.Sound) (accepts : lanes.Accepts (events ++ later))
    (ordered : Nondecreasing (events ++ later)) :
    ∃ next, lanes.run events = .ok next ∧ next.Sound ∧ next.Accepts later ∧
      ∀ inode, (lanes.lane inode).Grows (next.lane inode) := by
  induction events generalizing lanes with
  | nil => exact ⟨lanes, rfl, sound, accepts, fun _ => ⟨prefix_rfl, le_rfl⟩⟩
  | cons event rest ih =>
    rcases pairwise_cons.mp ordered with ⟨least, ordered⟩
    rcases step_follows sound (accepts event mem_cons_self) with ⟨middle, stepped, own, others⟩
    have placed (inode : ℕ) : (∃ dispatched, (middle.lane inode).Sound dispatched) ∧
        (lanes.lane inode).Grows (middle.lane inode) := by
      by_cases same : inode = event.1
      · exact same ▸ ⟨own.sound, own.grows⟩
      · rw [others inode same]
        exact ⟨sound inode, prefix_rfl, le_rfl⟩
    have accepts : middle.Accepts (rest ++ later) := by
      intro second mem work enqueues
      have before := accepts second (mem_cons_of_mem _ mem) work enqueues
      by_cases same : second.1 = event.1
      · rw [same] at before ⊢
        exact own.last _ (fun early first => least second mem same.symm early work first enqueues)
          before
      · rwa [others _ same]
    rcases ih (fun inode => (placed inode).1) accepts ordered with ⟨next, ran, sound, left, grown⟩
    refine ⟨next, ?_, sound, left, fun inode => ?_⟩
    · rw [run, foldlM_cons, stepped]
      exact ran
    · rcases (placed inode).2 with ⟨enqueued, retirement⟩
      exact ⟨enqueued.trans (grown inode).1, retirement.trans (grown inode).2⟩

/-- Works retire once and in order and no assertion fires. A fence covers the early chunks, and a
work is dispatched within the window of the moment, so that never more than two are in flight. -/
theorem publications_retire_in_order (ordered : Nondecreasing (events ++ later)) (inode : ℕ) :
    ∃ before after, run .empty events = .ok before ∧ before.run later = .ok after ∧
      (before.lane inode).retired <+: (before.lane inode).enqueued ∧
      (before.lane inode).queue.inFlight.pairs.length ≤ SINGLE_STREAM_PUBLICATION_WINDOW_V1 ∧
      (∀ next, before.step (inode, .nextWork) = .ok next →
        (next.lane inode).queue.inFlight.pairs.length ≤
          max (before.lane inode).queue.inFlight.pairs.length before.publicationWindow) ∧
      ∀ sequence, (before.lane inode).queue.publicationFence sequence ≤
          (after.lane inode).queue.nextRetirementOrdinal →
        ∀ (position : ℕ) (work : DetachedContainerWork),
          (before.lane inode).enqueued[position]? = some work →
            ∀ chunk ∈ work.chunks, chunk ≤ sequence →
              (after.lane inode).retired[position]? = some work := by
  have initial : Sound .empty := by
    refine fun _ => ⟨0, ?_⟩
    constructor <;> simp [lane, get?, empty]
  rcases run_follows initial (by simp [Accepts, lane, get?, empty]) ordered with
    ⟨before, ran, sound, accepts, _⟩
  have ordered : Nondecreasing (later ++ []) := by
    rw [append_nil]
    exact (pairwise_append.mp ordered).2.1
  rcases run_follows sound (by simpa using accepts) ordered with
    ⟨after, ranLater, soundLater, _, grown⟩
  rcases sound inode with ⟨dispatched, own⟩
  rcases soundLater inode with ⟨_, ended⟩
  rcases grown inode with ⟨⟨rest, enqueued⟩, retirement⟩
  refine ⟨before, after, ran, ranLater, own.retired ▸ List.take_prefix .., own.window, ?_, ?_⟩
  · intro next stepped
    rcases @step_follows before (inode, .nextWork) sound (by simp) with ⟨other, same, follows, _⟩
    cases same.symm.trans stepped
    exact follows.window
  · intro sequence returned position work found chunk mem early
    have passed : position < (after.lane inode).queue.nextRetirementOrdinal := by
      rcases lt_or_ge position (before.lane inode).queue.nextRetirementOrdinal with done | waiting
      · exact done.trans_le retirement
      · exact (own.lt_publicationFence found mem early waiting).trans_le returned
    rw [ended.retired, getElem?_take, if_pos passed, ← enqueued]
    exact (getElem?_append_left (List.getElem?_eq_some_iff.mp found).1).trans found

/-- A publisher takes both works of one inode, and then a second inode becomes active. -/
def sampleEvents : List (ℕ × PublicationEvent) :=
  [(1, .enqueue ⟨1, 0, 1, [1], rfl⟩), (1, .enqueue ⟨2, 0, 1, [2, 1], rfl⟩), (1, .nextWork),
    (1, .nextWork), (2, .enqueue ⟨1, 0, 1, [1], rfl⟩)]

def retireBoth : List (ℕ × PublicationEvent) :=
  [(1, .retirementTurn 0), (1, .finish 0), (1, .retirementTurn 1), (1, .finish 1)]

theorem publications_retire_in_order_sample : ∃ before after, run .empty sampleEvents = .ok before ∧
      before.run retireBoth = .ok after ∧
      (after.lane 1).retired[1]? = some ⟨2, 1, 1, [2, 1], rfl⟩ := by
  have ordered : Nondecreasing (sampleEvents ++ retireBoth) := by
    simp [Nondecreasing, sampleEvents, retireBoth]
  rcases publications_retire_in_order ordered 1 with ⟨before, after, ran, ranLater, _, _, _, fence⟩
  refine ⟨before, after, ran, ranLater, ?_⟩
  cases ran
  cases ranLater
  exact fence 1 (by decide) 1 _ rfl 1 (by decide) le_rfl

/-- The second inode shrinks the window while two works are in flight. -/
theorem window_shrinks_below_inFlight : ∃ lanes, run .empty sampleEvents = .ok lanes ∧
    lanes.publicationWindow < (lanes.lane 1).queue.inFlight.pairs.length :=
  ⟨_, rfl, by decide⟩

end PublicationLanes

end Fastdup.Appliance
