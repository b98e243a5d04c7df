import Fastdup.Posix.ObserverOrder
import Mathlib.Algebra.Group.Nat.Defs
import Mathlib.Data.List.Induction
import Mathlib.Order.Basic

/-!
# Calls in the order of the sequences

Every path except `open` holds `observer_order` from its mutation to the end of its callback, so
that one of them is outstanding at a time. The calls of a run are in order while each callback of
`open` is alone, and as soon as one is not, the run has a continuation that overtakes it.
-/

namespace Fastdup.Posix.System

open List Option Nat

variable {maximumFileBytes : ℕ} {system next : System} {index : ℕ}

/-- Every thread keeps the lock order, and no call is ahead of the inode. -/
structure Sane (system : System) : Prop where
  tasks : ∀ index, (system.tasks index).Disciplined (decide (system.observerOrder = some index))
  callbacks : ∀ callback ∈ system.callbacks, callback.sequence ≤ system.inode.mutationSequence
  enqueued : system.lastEnqueuedSequence ≤ system.inode.mutationSequence
  owed : ∀ index outstanding, (system.tasks index).outstanding = some outstanding →
    outstanding.callback.sequence ≤ system.inode.mutationSequence ∧
      (outstanding.running ≠ none → outstanding.callback ∈ system.callbacks)
  distinct : ∀ index other first second, (system.tasks index).outstanding = some first →
    (system.tasks other).outstanding = some second → index ≠ other →
      first.callback.sequence ≠ second.callback.sequence

/-- What holds while callbacks of `open` are alone. -/
structure Calm (system : System) : Prop where
  ordered : system.Ordered
  fresh : ∀ index outstanding, (system.tasks index).outstanding = some outstanding →
    system.lastEnqueuedSequence ≤ outstanding.callback.sequence ∧
      (outstanding.running = none → ∀ callback ∈ system.callbacks,
        callback.sequence < outstanding.callback.sequence)

theorem sane_start (inode : InodeState) (operations : ℕ → Operation) :
    (start inode operations).Sane where
  tasks := fun _ => disciplined_idle rfl (disciplined_instructions _)
  callbacks := nofun
  enqueued := zero_le _
  owed := fun _ _ same => by cases same
  distinct := fun _ _ _ _ same => by cases same

theorem calm_start (inode : InodeState) (operations : ℕ → Operation) :
    (start inode operations).Calm where
  ordered := ⟨List.Pairwise.nil, rfl⟩
  fresh := fun _ _ same => by cases same

variable {action : Action}

theorem step_moves (sane : system.Sane) (stepped : system.step maximumFileBytes action = some next)
    : ∃ index, Moves system next index ∧ Effect system next index := by
  unfold step at stepped
  split at stepped
  · cases stepped
  · cases action with
    | advance index => exact ⟨index, advance_moves (sane.tasks index) stepped⟩
    | ingest index outcome => exact ⟨index, ingest_moves (sane.tasks index) stepped⟩

theorem Moves.tasks (moves : Moves system next index) (sane : system.Sane) (other : ℕ) :
    (next.tasks other).Disciplined (decide (next.observerOrder = some other)) := by
  by_cases same : other = index
  · subst same
    exact moves.disciplined
  · have holder : decide (next.observerOrder = some other) =
        decide (system.observerOrder = some other) :=
          decide_eq_decide.mpr (moves.holders other same)
    rw [moves.others other same, holder]
    exact sane.tasks other

/-- What is outstanding after a step was outstanding before, or is the callback that the step
owes. -/
theorem Moves.outstanding (moves : Moves system next index)
    (keeps : Keeps (system.tasks index).outstanding (next.tasks index).outstanding) (other : ℕ) :
    Keeps (system.tasks other).outstanding (next.tasks other).outstanding := by
  by_cases same : other = index
  · subst same
    exact keeps
  · rw [moves.others other same]
    exact Keeps.refl _

section

variable (sane : system.Sane) (moves : Moves system next index)

include sane moves

theorem sane_of_keeps (inode : system.inode.mutationSequence ≤ next.inode.mutationSequence)
    (callbacks : next.callbacks = system.callbacks)
    (enqueued : next.lastEnqueuedSequence ≤ next.inode.mutationSequence)
    (keeps : Keeps (system.tasks index).outstanding (next.tasks index).outstanding) :
    next.Sane where
  tasks := moves.tasks sane
  callbacks := by
    intro callback mem
    exact (sane.callbacks callback (callbacks ▸ mem)).trans inode
  enqueued := enqueued
  owed := by
    intro other outstanding same
    obtain ⟨earlier, before, sameCallback, sameRunning⟩ :=
      moves.outstanding keeps other outstanding same
    obtain ⟨below, called⟩ := sane.owed other earlier before
    rw [← sameCallback, callbacks]
    exact ⟨below.trans inode, fun running => called (mt sameRunning.mp running)⟩
  distinct := by
    intro first second firstOutstanding secondOutstanding isFirst isSecond different
    obtain ⟨_, beforeFirst, sameFirst, _⟩ := moves.outstanding keeps first _ isFirst
    obtain ⟨_, beforeSecond, sameSecond, _⟩ := moves.outstanding keeps second _ isSecond
    rw [← sameFirst, ← sameSecond]
    exact sane.distinct first second _ _ beforeFirst beforeSecond different

variable {callback : Callback}

theorem sane_of_owed (inode : next.inode.mutationSequence = system.inode.mutationSequence + 1)
    (sequence : callback.sequence = system.inode.mutationSequence + 1)
    (callbacks : next.callbacks = system.callbacks)
    (enqueued : next.lastEnqueuedSequence = system.lastEnqueuedSequence)
    (outstanding : (next.tasks index).outstanding = some ⟨callback, none⟩) : next.Sane := by
  have grows : system.inode.mutationSequence ≤ next.inode.mutationSequence := by omega
  have older (other : ℕ) (different : other ≠ index) (earlier : Outstanding)
      (same : (next.tasks other).outstanding = some earlier) :
      earlier.callback.sequence < callback.sequence := by
    rw [moves.others other different] at same
    have below := (sane.owed other earlier same).1
    omega
  refine ⟨moves.tasks sane, ?_, ?_, ?_, ?_⟩
  · intro called mem
    exact (sane.callbacks called (callbacks ▸ mem)).trans grows
  · exact (enqueued ▸ sane.enqueued).trans grows
  · intro other earlier same
    by_cases isIndex : other = index
    · subst isIndex
      rw [outstanding] at same
      cases same
      exact ⟨(sequence.trans inode.symm).le, fun running => absurd rfl running⟩
    · rw [moves.others other isIndex] at same
      obtain ⟨below, called⟩ := sane.owed other earlier same
      exact ⟨below.trans grows, fun running => callbacks ▸ called running⟩
  · intro first second firstOutstanding secondOutstanding isFirst isSecond different
    by_cases firstIndex : first = index
    · subst firstIndex
      rw [outstanding] at isFirst
      cases isFirst
      exact (older second different.symm _ isSecond).ne'
    · by_cases secondIndex : second = index
      · subst secondIndex
        rw [outstanding] at isSecond
        cases isSecond
        exact (older first firstIndex _ isFirst).ne
      · rw [moves.others first firstIndex] at isFirst
        rw [moves.others second secondIndex] at isSecond
        exact sane.distinct first second _ _ isFirst isSecond different

theorem sane_of_called {left : ℕ}
    (before : (system.tasks index).outstanding = some ⟨callback, none⟩)
    (inode : next.inode = system.inode)
    (callbacks : next.callbacks = system.callbacks ++ [callback])
    (enqueued : next.lastEnqueuedSequence = system.lastEnqueuedSequence)
    (outstanding : (next.tasks index).outstanding = some ⟨callback, some left⟩) : next.Sane := by
  have earlier (other : ℕ) (after : Outstanding)
      (same : (next.tasks other).outstanding = some after) :
      ∃ old, (system.tasks other).outstanding = some old ∧ old.callback = after.callback ∧
        (after.running ≠ none → after.callback ∈ next.callbacks) := by
    by_cases isIndex : other = index
    · subst isIndex
      rw [outstanding] at same
      cases same
      exact ⟨_, before, rfl, fun _ => callbacks ▸ mem_append_right _ mem_cons_self⟩
    · rw [moves.others other isIndex] at same
      exact ⟨after, same, rfl, fun running =>
        callbacks ▸ mem_append_left _ ((sane.owed other after same).2 running)⟩
  refine ⟨moves.tasks sane, ?_, ?_, ?_, ?_⟩
  · intro called mem
    rw [callbacks] at mem
    rw [inode]
    rcases mem_append.mp mem with old | new
    · exact sane.callbacks called old
    · rw [mem_singleton.mp new]
      exact (sane.owed index _ before).1
  · rw [inode, enqueued]
    exact sane.enqueued
  · intro other after same
    obtain ⟨old, oldSame, sameCallback, called⟩ := earlier other after same
    rw [inode, ← sameCallback]
    exact ⟨(sane.owed other old oldSame).1, fun running => sameCallback ▸ called running⟩
  · intro first second firstOutstanding secondOutstanding isFirst isSecond different
    obtain ⟨_, oldFirst, sameFirst, _⟩ := earlier first _ isFirst
    obtain ⟨_, oldSecond, sameSecond, _⟩ := earlier second _ isSecond
    rw [← sameFirst, ← sameSecond]
    exact sane.distinct first second _ _ oldFirst oldSecond different

end

/-- Every move keeps the lock order. -/
theorem Sane.step (sane : system.Sane) (stepped : system.step maximumFileBytes action = some next) :
    next.Sane := by
  obtain ⟨index, moves, effect⟩ := step_moves sane stepped
  cases effect with
  | passed inode callbacks enqueued _ keeps =>
    exact sane_of_keeps sane moves inode callbacks ((enqueued ▸ sane.enqueued).trans inode) keeps
  | owed callback _ inode sequence callbacks enqueued _ outstanding =>
    exact sane_of_owed sane moves inode sequence callbacks enqueued outstanding
  | called callback left before inode callbacks enqueued _ outstanding =>
    exact sane_of_called sane moves before inode callbacks enqueued outstanding
  | admitted callback left before _ inode callbacks enqueued _ keeps =>
    refine sane_of_keeps sane moves (inode ▸ le_rfl) callbacks ?_ keeps
    rw [enqueued, inode]
    exact (sane.owed index _ before).1
  | failed _ _ _ _ result =>
    subst result
    exact { sane with }

theorem Sane.unique (sane : system.Sane) (alone : system.OpensAlone) {other : ℕ}
    (first : (system.tasks index).outstanding ≠ none)
    (second : (system.tasks other).outstanding ≠ none) : other = index := by
  by_cases opens : (system.tasks index).operation.IsOpen
  · exact alone index other opens first second
  · by_cases otherOpens : (system.tasks other).operation.IsOpen
    · exact (alone other index otherOpens second first).symm
    · have holds (task : ℕ) (closed : ¬ (system.tasks task).operation.IsOpen)
          (some : (system.tasks task).outstanding ≠ none) :
          system.observerOrder = Option.some task := by
        obtain ⟨⟨owes, isOwed, follows⟩, _⟩ := sane.tasks task
        have locks : (system.tasks task).operation.locksOrder = true := by
          simp [Operation.locksOrder, closed]
        rw [locks, isOwed some] at follows
        exact of_decide_eq_true (held_of_owes follows)
      exact Option.some.inj ((holds other otherOpens second).symm.trans (holds index opens first))

theorem ne_none_of_eq_some {outstanding : Option Outstanding} {value : Outstanding}
    (same : outstanding = some value) : outstanding ≠ none :=
  same ▸ some_ne_none value

/-- While opens are alone, every move keeps the calls in order. -/
theorem Calm.step (calm : system.Calm) (sane : system.Sane) (alone : system.OpensAlone)
    (aloneAfter : next.OpensAlone) (stepped : system.step maximumFileBytes action = some next) :
    next.Calm := by
  have saneAfter := sane.step stepped
  obtain ⟨index, moves, effect⟩ := step_moves sane stepped
  cases effect with
  | passed inode callbacks enqueued panicked keeps =>
    refine ⟨⟨callbacks ▸ calm.ordered.1, panicked ▸ calm.ordered.2⟩, ?_⟩
    intro other outstanding same
    obtain ⟨earlier, before, sameCallback, sameRunning⟩ :=
      moves.outstanding keeps other outstanding same
    obtain ⟨below, newer⟩ := calm.fresh other earlier before
    rw [enqueued, ← sameCallback, callbacks]
    exact ⟨below, fun owed => newer (sameRunning.mpr owed)⟩
  | owed callback _ inode sequence callbacks enqueued panicked outstanding =>
    -- The new sequence is larger than every earlier one, and nothing else is outstanding.
    refine ⟨⟨callbacks ▸ calm.ordered.1, panicked ▸ calm.ordered.2⟩, ?_⟩
    intro other after same
    obtain rfl := saneAfter.unique aloneAfter (ne_none_of_eq_some outstanding)
      (ne_none_of_eq_some same)
    rw [outstanding] at same
    cases same
    have last := sane.enqueued
    refine ⟨by rw [enqueued]; show _ ≤ callback.sequence; omega, ?_⟩
    intro _ called mem
    have below := sane.callbacks called (callbacks ▸ mem)
    show called.sequence < callback.sequence
    omega
  | called callback left before inode callbacks enqueued panicked outstanding =>
    obtain ⟨last, newer⟩ := calm.fresh index _ before
    refine ⟨⟨?_, panicked ▸ calm.ordered.2⟩, ?_⟩
    · rw [callbacks, map_append, pairwise_append]
      refine ⟨calm.ordered.1, pairwise_singleton _ _, ?_⟩
      intro earlier mem later isLast
      obtain ⟨called, inCallbacks, rfl⟩ := mem_map.mp mem
      rw [map_singleton, mem_singleton] at isLast
      subst isLast
      exact newer rfl called inCallbacks
    · intro other after same
      obtain rfl := saneAfter.unique aloneAfter (ne_none_of_eq_some outstanding)
        (ne_none_of_eq_some same)
      rw [outstanding] at same
      cases same
      exact ⟨enqueued ▸ last, nofun⟩
  | admitted callback left before _ inode callbacks enqueued panicked keeps =>
    refine ⟨⟨callbacks ▸ calm.ordered.1, panicked ▸ calm.ordered.2⟩, ?_⟩
    intro other after same
    obtain ⟨earlier, beforeOther, sameCallback, sameRunning⟩ :=
      moves.outstanding keeps other after same
    obtain rfl := sane.unique alone (ne_none_of_eq_some before) (ne_none_of_eq_some beforeOther)
    rw [before] at beforeOther
    cases beforeOther
    refine ⟨(enqueued.trans (congrArg Callback.sequence sameCallback)).le, ?_⟩
    intro owed
    cases sameRunning.mpr owed
  | failed callback left before backward _ =>
    have forward := (calm.fresh index _ before).1
    exact absurd forward (not_le.mpr backward)

/-- At every point of the run, callbacks of `open` are alone. -/
def AloneThroughout (maximumFileBytes : ℕ) (system : System) (actions : List Action) : Prop :=
  ∀ earlier later reached, actions = earlier ++ later →
    system.run maximumFileBytes earlier = some reached → reached.OpensAlone

theorem run_append {earlier later : List Action} {last : System} :
    system.run maximumFileBytes (earlier ++ later) = some last ↔
      ∃ middle, system.run maximumFileBytes earlier = some middle ∧
        middle.run maximumFileBytes later = some last := by
  simp [run, bind_eq_some_iff]

theorem run_singleton :
    system.run maximumFileBytes [action] = system.step maximumFileBytes action := by
  simp [run]

variable {actions : List Action}

theorem Sane.run (sane : system.Sane) (reached : system.run maximumFileBytes actions = some next) :
    next.Sane := by
  induction actions using List.reverseRecOn generalizing next with
  | nil =>
    cases reached
    exact sane
  | append_singleton earlier action ih =>
    obtain ⟨middle, before, stepped⟩ := run_append.mp reached
    exact (ih before).step (run_singleton.symm.trans stepped)

variable {operations : ℕ → Operation} {inode : InodeState}

section

variable (reached : (start inode operations).run maximumFileBytes actions = some system)

include reached

theorem sane_of_run : system.Sane :=
  (sane_start inode operations).run reached

theorem calm_of_run (alone : (start inode operations).AloneThroughout maximumFileBytes actions) :
    system.Calm := by
  induction actions using List.reverseRecOn generalizing system with
  | nil =>
    cases reached
    exact calm_start inode operations
  | append_singleton earlier action ih =>
    obtain ⟨middle, before, stepped⟩ := run_append.mp reached
    have aloneBefore : (start inode operations).AloneThroughout maximumFileBytes earlier := by
      intro prior rest state split
      exact alone prior (rest ++ [action]) state (by rw [split, append_assoc])
    exact (ih before aloneBefore).step (sane_of_run before)
      (alone earlier [action] middle rfl before)
      (alone _ [] system (append_nil _).symm reached) (run_singleton.symm.trans stepped)

end

theorem run_cons {later : List Action} {middle last : System}
    (first : system.step maximumFileBytes action = some middle)
    (rest : middle.run maximumFileBytes later = some last) :
    system.run maximumFileBytes (action :: later) = some last := by
  rw [run, foldlM_cons, first]
  exact rest

theorem step_of_quiet (quiet : system.panicked = false) :
    system.step maximumFileBytes action = system.stepTask maximumFileBytes action :=
  if_neg (by simp [quiet])

theorem exists_call {held : Bool} {remaining : List Instruction}
    (owed : (system.tasks index).outstanding = some ⟨callback, none⟩)
    (quiet : system.panicked = false) (shape : (system.tasks index).remaining = remaining)
    (follows : disciplined (system.tasks index).operation.locksOrder held true remaining = true) :
    ∃ actions next, system.run maximumFileBytes actions = some next ∧
      next.callbacks = system.callbacks ++ [callback] ∧
      (next.tasks index).outstanding = some ⟨callback, some callback.fragments⟩ ∧
      (∀ other, other ≠ index → next.tasks other = system.tasks other) ∧
      next.lastEnqueuedSequence = system.lastEnqueuedSequence ∧ next.panicked = false := by
  induction remaining generalizing system with
  | nil => simp [disciplined] at follows
  | cons first rest ih =>
    cases first with
    | unlockCatalog =>
      let unlocked := { system with catalog := none }.withTask index (system.proceed index rest)
      have stepped : system.step maximumFileBytes (.advance index) = some unlocked := by
        rw [step_of_quiet quiet, stepTask, advance, shape]
      have same : unlocked.tasks index = system.proceed index rest := withTask_self ..
      obtain ⟨actions, next, reached, callbacks, outstanding, others, enqueued, calm⟩ :=
        @ih unlocked (by rw [same]; exact owed) quiet (by rw [same]; rfl)
          (by rw [same]; exact follows)
      refine ⟨_, next, run_cons stepped reached, callbacks, outstanding, ?_, enqueued, calm⟩
      intro other different
      exact (others other different).trans (withTask_of_ne _ _ different)
    | observe =>
      let called := { system with callbacks := system.callbacks ++ [callback] }.withTask index
        { system.tasks index with outstanding := some ⟨callback, some callback.fragments⟩ }
      have stepped : system.step maximumFileBytes (.advance index) = some called := by
        rw [step_of_quiet quiet, stepTask, advance, shape]
        show system.observe index rest = some called
        rw [observe, owed]
      refine ⟨[.advance index], called, run_singleton.trans stepped, rfl, ?_, ?_, rfl, quiet⟩
      · exact congrArg Task.outstanding (withTask_self ..)
      · exact fun other different => withTask_of_ne _ _ different
    | validate | lockCatalog | lockOrder | unlockOrder | mutate | touch =>
      simp [disciplined] at follows

theorem exists_admission {left : ℕ}
    (called : (system.tasks index).outstanding = some ⟨callback, some left⟩)
    (quiet : system.panicked = false) :
    ∃ next, system.run maximumFileBytes [.ingest index .admitted] = some next ∧
      (callback.sequence < system.lastEnqueuedSequence → next.panicked = true) ∧
      (next.panicked = true ∨ next.lastEnqueuedSequence = callback.sequence ∧
        next.panicked = false ∧ ∀ other, other ≠ index →
          next.tasks other = system.tasks other) := by
  have stepped : system.step maximumFileBytes (.ingest index .admitted) =
      some (system.admitCall index callback left) := by
    rw [step_of_quiet quiet, stepTask, ingest, called]
  refine ⟨_, run_singleton.trans stepped, ?_⟩
  unfold admitCall
  split
  · exact ⟨fun _ => rfl, .inl rfl⟩
  · rename_i forward
    exact ⟨fun backward => absurd backward forward,
      .inr ⟨rfl, quiet, fun other different => withTask_of_ne _ _ different⟩⟩

section

variable {first second : Outstanding} {other : ℕ} (sane : system.Sane)
  (quiet : system.panicked = false) (different : index ≠ other)
  (isFirst : (system.tasks index).outstanding = some first)
  (isSecond : (system.tasks other).outstanding = some second)

include sane quiet different isFirst isSecond

/-- A callback with the smaller sequence comes after one that has been called. -/
theorem not_ordered_of_called (called : second.running ≠ none)
    (delivered : second.callback ∈ system.callbacks)
    (smaller : first.callback.sequence < second.callback.sequence) :
    ∃ actions next, system.run maximumFileBytes actions = some next ∧ ¬ next.Ordered := by
  obtain ⟨callback, running⟩ := first
  obtain ⟨later, _ | otherLeft⟩ := second
  · exact absurd rfl called
  cases running with
  | none =>
    -- The first callback is called after the second one.
    obtain ⟨⟨owes, isOwed, follows⟩, _⟩ := sane.tasks index
    rw [isOwed (ne_none_of_eq_some isFirst)] at follows
    obtain ⟨actions, next, reached, callbacks, _⟩ :=
      @exists_call maximumFileBytes _ _ _ _ _ isFirst quiet rfl follows
    refine ⟨actions, next, reached, fun ordered => ?_⟩
    have increasing := ordered.1
    rw [callbacks, map_append, pairwise_append] at increasing
    have overtaken := increasing.2.2 later.sequence (mem_map_of_mem delivered)
      callback.sequence mem_cons_self
    exact lt_asymm smaller overtaken
  | some left =>
    -- The second callback is queued first; then the assertion of the first one fails.
    obtain ⟨middle, reached, _, failed | ⟨enqueued, calm, others⟩⟩ :=
      @exists_admission maximumFileBytes _ _ _ _ isSecond quiet
    · exact ⟨_, middle, reached, fun ordered => by simp [ordered.2] at failed⟩
    · have stillFirst := (congrArg Task.outstanding (others index different)).trans isFirst
      obtain ⟨next, last, panics, _⟩ := @exists_admission maximumFileBytes _ _ _ _ stillFirst calm
      refine ⟨_, next, run_append.mpr ⟨middle, reached, last⟩, fun ordered => ?_⟩
      have panicked := panics (enqueued.symm ▸ smaller)
      simp [ordered.2] at panicked

theorem not_ordered_of_outstanding (smaller : first.callback.sequence < second.callback.sequence) :
    ∃ actions next, system.run maximumFileBytes actions = some next ∧ ¬ next.Ordered := by
  obtain ⟨later, running⟩ := second
  cases running with
  | some left =>
    have delivered := (sane.owed other _ isSecond).2 (some_ne_none _)
    exact not_ordered_of_called sane quiet different isFirst isSecond (some_ne_none _)
      delivered smaller
  | none =>
    obtain ⟨⟨owes, isOwed, follows⟩, _⟩ := sane.tasks other
    rw [isOwed (ne_none_of_eq_some isSecond)] at follows
    obtain ⟨actions, middle, reached, callbacks, outstanding, others, _, calm⟩ :=
      @exists_call maximumFileBytes _ _ _ _ _ isSecond quiet rfl follows
    have saneMiddle : middle.Sane := sane.run reached
    have stillFirst := (congrArg Task.outstanding (others index different)).trans isFirst
    have delivered : later ∈ middle.callbacks := callbacks ▸ mem_append_right _ mem_cons_self
    obtain ⟨more, next, last, disordered⟩ := @not_ordered_of_called maximumFileBytes _ _ _ _ _
      saneMiddle calm different stillFirst outstanding (some_ne_none _) delivered smaller
    exact ⟨_, next, run_append.mpr ⟨middle, reached, last⟩, disordered⟩

end

theorem operation_of_run
    (reached : (start inode operations).run maximumFileBytes actions = some system) (task : ℕ) :
    (system.tasks task).operation = operations task := by
  induction actions using List.reverseRecOn generalizing system with
  | nil =>
    cases reached
    rfl
  | append_singleton earlier action ih =>
    obtain ⟨middle, before, stepped⟩ := run_append.mp reached
    obtain ⟨index, moves, _⟩ := step_moves (sane_of_run before) (run_singleton.symm.trans stepped)
    by_cases same : task = index
    · subst same
      rw [moves.operation, ih before]
    · rw [moves.others task same, ih before]

theorem opensAlone_of_no_open (closed : ∀ task, ¬ (operations task).IsOpen)
    (reached : (start inode operations).run maximumFileBytes actions = some system) :
    system.OpensAlone := by
  intro index other opens
  rw [operation_of_run reached] at opens
  exact absurd opens (closed index)

/-- The observer is called in the order of the sequences in every run in which the callbacks of
`open` are alone; and if every run keeps the order, they are alone in every run. -/
theorem callbacks_ordered_iff_opens_alone (maximumFileBytes : ℕ) (inode : InodeState)
    (operations : ℕ → Operation) :
    (∀ actions system, (start inode operations).run maximumFileBytes actions = some system →
        (start inode operations).AloneThroughout maximumFileBytes actions → system.Ordered) ∧
      ((∀ actions system, (start inode operations).run maximumFileBytes actions = some system →
          system.Ordered) ↔
        ∀ actions system, (start inode operations).run maximumFileBytes actions = some system →
          system.OpensAlone) := by
  have sufficient : ∀ actions system,
      (start inode operations).run maximumFileBytes actions = some system →
        (start inode operations).AloneThroughout maximumFileBytes actions → system.Ordered :=
    fun _ _ reached alone => (calm_of_run reached alone).ordered
  refine ⟨sufficient, ?_, ?_⟩
  · intro ordered actions system reached index other opens first second
    by_contra different
    have sane := sane_of_run reached
    have quiet := (ordered actions system reached).2
    obtain ⟨firstOutstanding, isFirst⟩ := ne_none_iff_exists'.mp first
    obtain ⟨secondOutstanding, isSecond⟩ := ne_none_iff_exists'.mp second
    have apart := sane.distinct index other _ _ isFirst isSecond (Ne.symm different)
    have disordered : ∃ more next, system.run maximumFileBytes more = some next ∧
      ¬ next.Ordered := by
      rcases lt_or_gt_of_ne apart with smaller | larger
      · exact not_ordered_of_outstanding sane quiet (Ne.symm different) isFirst isSecond smaller
      · exact not_ordered_of_outstanding sane quiet different isSecond isFirst larger
    obtain ⟨more, next, continued, notOrdered⟩ := disordered
    exact notOrdered (ordered _ next (run_append.mpr ⟨system, reached, continued⟩))
  · intro alone actions system reached
    exact sufficient actions system reached (fun earlier _ middle _ before =>
      alone earlier middle before)

def smallFile : InodeState where
  immutable := false
  size := 4
  mutationSequence := 0
  linkCount := 1

/-- Concurrent writes, set-lengths and creates of one file keep the order. -/
theorem callbacks_ordered_without_open :
    ∀ actions system, (start smallFile fun task =>
        if task = 0 then .createExisting .readWrite true none
        else if task % 2 = 0 then .setLength none task none
        else .write .readWrite true 0 task none).run (2 ^ 40) actions = some system →
      system.Ordered := by
  refine (callbacks_ordered_iff_opens_alone (2 ^ 40) smallFile _).2.mpr ?_
  intro actions system reached
  refine opensAlone_of_no_open ?_ reached
  intro task opens
  split at opens
  · exact opens
  · split at opens <;> exact opens

def racing (task : ℕ) : Operation :=
  if task = 0 then .openFile .readWrite true none else .write .readWrite false 0 4 none

/-- The write is called and queued between the truncation of `open` and its callback. -/
def overtaking : List Action :=
  [.advance 0, .advance 0, .advance 0, .advance 1, .advance 1, .advance 1, .advance 1,
    .ingest 1 .admitted, .advance 0, .ingest 0 .admitted]

/-- The callbacks arrive in the wrong order, and the ingest panics. -/
theorem open_truncate_overtaken :
    ∃ system, (start smallFile racing).run (2 ^ 40) overtaking = some system ∧
      system.callbacks.map Callback.sequence = [2, 1] ∧ system.panicked = true ∧
      ¬ system.Ordered := by
  refine ⟨_, rfl, rfl, rfl, ?_⟩
  rintro ⟨_, calm⟩
  cases calm

end Fastdup.Posix.System
