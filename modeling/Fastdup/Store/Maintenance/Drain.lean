import Fastdup.Library.Epochs
import Fastdup.Store.Maintenance.Pool

/-!
# Draining pins before unlinking

Within one process, an online cycle activates an Exact generation that shows its victims as
RETIRING, waits until no displaced generation is pinned, unlinks the victims and activates a
generation without them. A cycle may stop at any point between. Whatever RETIRING entries it
leaves are durable, and the finalizer at the start of a later cycle unlinks their Containers. The
finalizer has no drain to wait for.

Generations are numbered in the order in which the process installs them. A process starts
without pins; the RETIRING entries of an earlier process are those it finds uninstalled.
-/

namespace Fastdup.Store.Maintenance

open Library List Option Epochs Nat

/-- `OnlineGcRetirement`: the victims and the drained generations still to be awaited. -/
structure OnlineGcRetirement where
  victims : List ContainerId
  /-- The generation that first shows the victims as RETIRING. -/
  activation : ℕ
  awaiting : List ℕ
  deriving DecidableEq

/-- Retired Containers with the activations that readers may still hold. -/
structure Retirements where
  epochs : Epochs
  stored : List ContainerId
  /-- The effective RETIRING Containers of the installed generation. -/
  retiring : List ContainerId
  /-- Durable RETIRING Containers of an activation that the process has not installed. -/
  uninstalled : List ContainerId
  /-- The first installed generation that showed the Container as RETIRING. -/
  retiredAt : ContainerId → Option ℕ
  cycles : List OnlineGcRetirement
  finalizers : List (List ContainerId)

/-- What publication, readers and maintenance do. -/
inductive RetirementEvent where
  | publish (container : ContainerId)
  | pins (action : PinAction)
  /-- An activation that retires nothing, or the recovery of the durable one. -/
  | install
  | activate (victims : List ContainerId)
  /-- An activation that fails after it became durable. -/
  | activateUncertain (victims : List ContainerId)
  | await (cycle : ℕ)
  | unlink (cycle : ℕ) (container : ContainerId)
  | complete (cycle : ℕ)
  /-- A cycle that is cancelled or fails. -/
  | abandon (cycle : ℕ)
  | finalize
  | finalizerUnlink (finalizer : ℕ) (container : ContainerId)
  | finalizerComplete (finalizer : ℕ)
  | finalizerAbandon (finalizer : ℕ)
  deriving DecidableEq

namespace Retirements

/-- A process that starts on a pool with durable RETIRING entries. -/
def start (stored recovered : List ContainerId) : Retirements where
  epochs := Epochs.initial
  stored := stored
  retiring := []
  uninstalled := recovered
  retiredAt _ := none
  cycles := []
  finalizers := []

/-- `install_active_generation` of a generation that shows `added` as RETIRING and `removed` as
REMOVED. -/
def install (added removed : List ContainerId) (retirements : Retirements) : Retirements :=
  { retirements with
    epochs := retirements.epochs.install
    retiring := (retirements.retiring ++ (retirements.uninstalled ++ added)).filter
      (fun container => container ∉ removed)
    uninstalled := []
    retiredAt := fun container => (retirements.retiredAt container).or
      (if container ∈ retirements.uninstalled ++ added then some retirements.epochs.count
      else none) }

/-- `pin_online_generation`: an activation whose outcome was uncertain is recovered first. -/
def pinOnlineGeneration (retirements : Retirements) : Retirements :=
  if retirements.uninstalled = [] then retirements else retirements.install [] []

def unlinks (retirements : Retirements) : RetirementEvent → Option ContainerId
  | .unlink cycle container =>
    (retirements.cycles[cycle]?).bind fun retirement =>
      if retirement.awaiting = [] ∧ container ∈ retirement.victims ∧
          container ∈ retirements.stored then
        some container
      else none
  | .finalizerUnlink finalizer container =>
    (retirements.finalizers[finalizer]?).bind fun victims =>
      if container ∈ victims ∧ container ∈ retirements.stored then some container else none
  | _ => none

/-- Installs a generation that retires the victims, and begins to wait for its readers. -/
def activate (victims : List ContainerId) (retirements : Retirements) : Retirements :=
  let installed := retirements.install victims []
  { installed with
    cycles := installed.cycles ++ [{ victims := victims,
                                     activation := retirements.epochs.count,
                                     awaiting := installed.epochs.registry }] }

/-- A finalizer takes what is RETIRING when it begins. -/
def beginFinalizer (retirements : Retirements) : Retirements :=
  if retirements.retiring = [] then retirements
  else { retirements with finalizers := retirements.finalizers ++ [retirements.retiring] }

def withoutUnlinked (retirements : Retirements) (event : RetirementEvent) : Retirements :=
  match retirements.unlinks event with
  | some container =>
    { retirements with stored := retirements.stored.filter (fun other => other ≠ container) }
  | none => retirements

/-- Nothing of the victims is stored any more. -/
def AllUnlinked (retirements : Retirements) (victims : List ContainerId) : Prop :=
  ∀ container ∈ victims, container ∉ retirements.stored

instance (retirements : Retirements) (victims : List ContainerId) :
    Decidable (retirements.AllUnlinked victims) :=
  inferInstanceAs (Decidable (∀ container ∈ victims, container ∉ retirements.stored))

/-- An event that the state does not allow changes nothing. -/
def step (retirements : Retirements) : RetirementEvent → Retirements
  | .publish container =>
    if retirements.retiredAt container = none ∧ container ∉ retirements.uninstalled then
      { retirements with stored := container :: retirements.stored }
    else retirements
  | .pins action => { retirements with epochs := retirements.epochs.act action }
  | .install => retirements.install [] []
  | .activate victims =>
    -- The proof binds the installed generation, so there is one and it is the durable one.
    if 0 < retirements.epochs.count ∧ retirements.uninstalled = [] ∧ victims ≠ [] then
      retirements.activate victims
    else retirements
  | .activateUncertain victims =>
    if 0 < retirements.epochs.count ∧ retirements.uninstalled = [] then
      { retirements with uninstalled := victims }
    else retirements
  | .await cycle =>
    match retirements.cycles[cycle]? with
    | some { victims, activation, awaiting := generation :: later } =>
      if (retirements.epochs.epoch generation).active = 0 then
        { retirements with
          cycles := retirements.cycles.set cycle { victims, activation, awaiting := later } }
      else retirements
    | _ => retirements
  | .unlink cycle container => retirements.withoutUnlinked (.unlink cycle container)
  | .complete cycle =>
    match retirements.cycles[cycle]? with
    | some retirement =>
      if retirement.awaiting = [] ∧ retirements.AllUnlinked retirement.victims then
        { retirements.install [] retirement.victims with
          cycles := retirements.cycles.eraseIdx cycle }
      else retirements
    | none => retirements
  | .abandon cycle => { retirements with cycles := retirements.cycles.eraseIdx cycle }
  | .finalize => retirements.pinOnlineGeneration.beginFinalizer
  | .finalizerUnlink finalizer container =>
    retirements.withoutUnlinked (.finalizerUnlink finalizer container)
  | .finalizerComplete finalizer =>
    match retirements.finalizers[finalizer]? with
    | some victims =>
      if retirements.AllUnlinked victims then
        { retirements.install [] victims with
          finalizers := retirements.finalizers.eraseIdx finalizer }
      else retirements
    | none => retirements
  | .finalizerAbandon finalizer =>
    { retirements with finalizers := retirements.finalizers.eraseIdx finalizer }

def run (retirements : Retirements) (events : List RetirementEvent) : Retirements :=
  events.foldl step retirements

/-- The Container became RETIRING, and no generation that was active before that is pinned. -/
def Drained (retirements : Retirements) (container : ContainerId) : Prop :=
  ∃ activation, retirements.retiredAt container = some activation ∧
    ∀ generation < activation, (retirements.epochs.epoch generation).held = 0

/-- Every unlink of the run happens after the drain. -/
def UnlinksDrained (retirements : Retirements) : List RetirementEvent → Prop
  | [] => True
  | event :: later =>
    (∀ container, retirements.unlinks event = some container → retirements.Drained container) ∧
      (retirements.step event).UnlinksDrained later

/-- A finalizer that starts now finds only drained Containers to unlink. -/
def FinalizerReady (retirements : Retirements) : Prop :=
  ∀ container ∈ retirements.pinOnlineGeneration.retiring,
    container ∈ retirements.pinOnlineGeneration.stored →
      retirements.pinOnlineGeneration.Drained container

/-- Every finalizer of the run starts when all displaced generations are drained. -/
def FinalizersReady (retirements : Retirements) : List RetirementEvent → Prop
  | [] => True
  | event :: later =>
    (event = .finalize → retirements.FinalizerReady) ∧
      (retirements.step event).FinalizersReady later

/-- The generations displaced by the activation of a cycle are awaited or have no pin. -/
structure Covers (retirements : Retirements) (retirement : OnlineGcRetirement) : Prop where
  installed : retirement.activation < retirements.epochs.count
  retired : ∀ container ∈ retirement.victims, ∃ activation ≤ retirement.activation,
    retirements.retiredAt container = some activation
  awaited : ∀ generation < retirement.activation,
    generation ∈ retirement.awaiting ∨ (retirements.epochs.epoch generation).held = 0

/-- Every victim was retired, and is drained while it is stored. -/
def Finalizes (retirements : Retirements) (victims : List ContainerId) : Prop :=
  ∀ container ∈ victims, (∃ activation, retirements.retiredAt container = some activation) ∧
    (container ∈ retirements.stored → retirements.Drained container)

/-- Retirement marks belong to installed activations, and every cycle rests on such marks. -/
structure Sound (retirements : Retirements) : Prop where
  tracked : retirements.epochs.Tracked
  bounded : ∀ container activation, retirements.retiredAt container = some activation →
    activation < retirements.epochs.count
  marked : ∀ container ∈ retirements.retiring,
    ∃ activation, retirements.retiredAt container = some activation
  cycles : ∀ retirement ∈ retirements.cycles, retirements.Covers retirement
  finalizers : ∀ victims ∈ retirements.finalizers, retirements.Finalizes victims

/-- Retirement and activation only go forward. -/
structure Later (before after : Retirements) : Prop where
  count : before.epochs.count ≤ after.epochs.count
  retiredAt : ∀ container activation, before.retiredAt container = some activation →
    after.retiredAt container = some activation
  quiet : ∀ generation, before.epochs.Retired generation →
    (before.epochs.epoch generation).held = 0 → (after.epochs.epoch generation).held = 0
  stored : ∀ container ∈ after.stored, container ∈ before.stored ∨
    before.retiredAt container = none

variable {before after retirements : Retirements} {container : ContainerId}

theorem Later.drained (later : Later before after) (sound : before.Sound)
    (drained : before.Drained container) : after.Drained container := by
  obtain ⟨activation, shown, quiet⟩ := drained
  have installed := sound.bounded container activation shown
  refine ⟨activation, later.retiredAt container activation shown, ?_⟩
  intro generation earlier
  exact later.quiet generation (show generation + 1 < _ by omega) (quiet generation earlier)

theorem Later.covers (later : Later before after) {retirement : OnlineGcRetirement}
    (covers : before.Covers retirement) : after.Covers retirement := by
  refine ⟨covers.installed.trans_le later.count, ?_, ?_⟩
  · intro container victim
    obtain ⟨activation, le, shown⟩ := covers.retired container victim
    exact ⟨activation, le, later.retiredAt container activation shown⟩
  · intro generation earlier
    have installed := covers.installed
    exact (covers.awaited generation earlier).imp_right
      (later.quiet generation (show generation + 1 < _ by omega))

theorem Later.finalizes (later : Later before after) (sound : before.Sound)
    {victims : List ContainerId} (finalizes : before.Finalizes victims) :
    after.Finalizes victims := by
  intro container victim
  obtain ⟨⟨activation, shown⟩, drained⟩ := finalizes container victim
  refine ⟨⟨activation, later.retiredAt container activation shown⟩, ?_⟩
  intro found
  rcases later.stored container found with old | new
  · exact later.drained sound (drained old)
  · rw [new] at shown
    cases shown

/-- A later state is sound when the RETIRING entries, cycles and finalizers that it adds are. -/
theorem Sound.of_later (sound : before.Sound) (later : Later before after)
    (tracked : after.epochs.Tracked)
    (bounded : ∀ container activation, after.retiredAt container = some activation →
      before.retiredAt container = some activation ∨ activation < after.epochs.count)
    (marked : ∀ container ∈ after.retiring, container ∈ before.retiring ∨
      ∃ activation, after.retiredAt container = some activation)
    (cycles : ∀ retirement ∈ after.cycles, retirement ∈ before.cycles ∨ after.Covers retirement)
    (finalizers : ∀ victims ∈ after.finalizers,
      victims ∈ before.finalizers ∨ after.Finalizes victims) : after.Sound where
  tracked := tracked
  bounded container activation shown := by
    rcases bounded container activation shown with old | new
    · exact (sound.bounded container activation old).trans_le later.count
    · exact new
  marked container retiring := by
    rcases marked container retiring with old | new
    · obtain ⟨activation, shown⟩ := sound.marked container old
      exact ⟨activation, later.retiredAt container activation shown⟩
    · exact new
  cycles retirement running := by
    rcases cycles retirement running with old | new
    · exact later.covers (sound.cycles retirement old)
    · exact new
  finalizers victims running := by
    rcases finalizers victims running with old | new
    · exact later.finalizes sound (sound.finalizers victims old)
    · exact new

theorem start_sound (stored recovered : List ContainerId) : (start stored recovered).Sound where
  tracked := tracked_initial
  bounded _ _ shown := nomatch shown
  marked _ retiring := nomatch retiring
  cycles _ running := nomatch running
  finalizers _ running := nomatch running

/-- Leaving out cycles and finalizers and unlinking Containers keeps soundness. -/
theorem Sound.shrink (sound : before.Sound) (epochs : after.epochs = before.epochs)
    (retiredAt : after.retiredAt = before.retiredAt) (retiring : after.retiring = before.retiring)
    (stored : ∀ container ∈ after.stored, container ∈ before.stored ∨
      before.retiredAt container = none)
    (cycles : ∀ retirement ∈ after.cycles, retirement ∈ before.cycles ∨ before.Covers retirement)
    (finalizers : ∀ victims ∈ after.finalizers, victims ∈ before.finalizers) : after.Sound := by
  have later : Later before after := by
    refine ⟨by rw [epochs], by rw [retiredAt]; exact fun _ _ shown => shown, ?_, stored⟩
    rw [epochs]
    exact fun _ _ quiet => quiet
  refine sound.of_later later (epochs ▸ sound.tracked) ?_ ?_ ?_ ?_
  · rw [retiredAt]
    exact fun _ _ shown => .inl shown
  · rw [retiring]
    exact fun _ shown => .inl shown
  · intro retirement running
    exact (cycles retirement running).imp_right later.covers
  · intro victims running
    exact .inl (finalizers victims running)

theorem act_sound (sound : retirements.Sound) (action : PinAction) :
    (retirements.step (.pins action)).Sound := by
  have later : Later retirements (retirements.step (.pins action)) := by
    refine ⟨(count_act action).ge, fun _ _ shown => shown, ?_, fun _ found => .inl found⟩
    intro generation displaced quiet
    exact held_act action displaced (sound.tracked.closed generation displaced) quiet
  exact sound.of_later later (sound.tracked.act action) (fun _ _ shown => .inl shown)
    (fun _ shown => .inl shown) (fun _ running => .inl running) (fun _ running => .inl running)

theorem retiredAt_install (added removed : List ContainerId) {activation : ℕ}
    (shown : (retirements.install added removed).retiredAt container = some activation) :
    retirements.retiredAt container = some activation ∨ activation = retirements.epochs.count := by
  rcases or_eq_some_iff.mp shown with old | ⟨_, new⟩
  · exact .inl old
  · split at new
    · cases new
      exact .inr rfl
    · cases new

theorem retiredAt_of_added (added removed : List ContainerId)
    (new : container ∈ retirements.uninstalled ++ added) (sound : retirements.Sound) :
    ∃ activation ≤ retirements.epochs.count,
      (retirements.install added removed).retiredAt container = some activation := by
  cases shown : retirements.retiredAt container with
  | none =>
    refine ⟨_, le_rfl, ?_⟩
    simp only [install, shown, if_pos new, none_or]
  | some activation =>
    refine ⟨activation, (sound.bounded container activation shown).le, ?_⟩
    simp only [install, shown, some_or]

theorem install_later (added removed : List ContainerId) :
    Later retirements (retirements.install added removed) := by
  refine ⟨count_install.ge.trans' (le_succ _), ?_, ?_, fun _ found => .inl found⟩
  · intro container activation shown
    exact or_eq_some_iff.mpr (.inl shown)
  · intro generation displaced quiet
    have earlier : generation < retirements.epochs.count := lt_of_succ_lt displaced
    exact (held_install earlier).trans quiet

section

variable (sound : retirements.Sound)

include sound

theorem install_sound (added removed : List ContainerId) :
    (retirements.install added removed).Sound := by
  refine sound.of_later (install_later added removed) sound.tracked.install ?_ ?_
    (fun _ running => .inl running) (fun _ running => .inl running)
  · intro container activation shown
    rcases retiredAt_install added removed shown with old | rfl
    · exact .inl old
    · exact .inr (lt_succ_self _ |>.trans_eq count_install.symm)
  · intro container retiring
    rcases mem_append.mp (mem_filter.mp retiring).1 with old | new
    · exact .inl old
    · obtain ⟨activation, _, shown⟩ := retiredAt_of_added added removed new sound
      exact .inr ⟨activation, shown⟩

theorem activate_sound (victims : List ContainerId) : (retirements.activate victims).Sound := by
  have installed := install_sound sound victims []
  refine { installed with cycles := ?_ }
  intro retirement running
  rcases mem_append.mp running with old | new
  · obtain ⟨earlier, retired, awaited⟩ := installed.cycles retirement old
    exact ⟨earlier, retired, awaited⟩
  · rw [mem_singleton] at new
    subst new
    refine ⟨lt_succ_self _ |>.trans_eq count_install.symm, ?_, ?_⟩
    · intro container victim
      exact retiredAt_of_added victims [] (mem_append_right _ victim) sound
    · intro generation earlier
      exact sound.tracked.install_registered earlier

theorem await_sound (cycle : ℕ) : (retirements.step (.await cycle)).Sound := by
  simp only [step]
  split
  · rename_i victims activation generation later running
    split
    · rename_i drained
      refine sound.shrink rfl rfl rfl (fun _ found => .inl found) ?_ (fun _ kept => kept)
      intro retirement kept
      rcases mem_or_eq_of_mem_set kept with old | rfl
      · exact .inl old
      · obtain ⟨installed, retired, awaited⟩ := sound.cycles _ (mem_of_getElem? running)
        refine .inr ⟨installed, retired, ?_⟩
        intro other earlier
        rcases awaited other earlier with waiting | quiet
        · rcases mem_cons.mp waiting with rfl | rest
          · exact .inr (Nat.eq_zero_of_add_eq_zero_right drained)
          · exact .inl rest
        · exact .inr quiet
    · exact sound
  · exact sound

theorem withoutUnlinked_sound (event : RetirementEvent) :
    (retirements.withoutUnlinked event).Sound := by
  unfold withoutUnlinked
  split
  · refine sound.shrink rfl rfl rfl ?_ (fun _ kept => .inl kept) (fun _ kept => kept)
    intro container found
    exact .inl (mem_of_mem_filter found)
  · exact sound

theorem pinOnlineGeneration_sound : retirements.pinOnlineGeneration.Sound := by
  unfold pinOnlineGeneration
  split
  · exact sound
  · exact install_sound sound [] []

theorem finalize_sound (ready : retirements.FinalizerReady) :
    (retirements.step .finalize).Sound := by
  have pinned := pinOnlineGeneration_sound sound
  simp only [step, beginFinalizer]
  split
  · exact pinned
  · refine { pinned with cycles := ?_, finalizers := ?_ }
    · intro retirement running
      obtain ⟨earlier, retired, awaited⟩ := pinned.cycles retirement running
      exact ⟨earlier, retired, awaited⟩
    · intro victims running
      rcases mem_append.mp running with old | new
      · exact pinned.finalizers victims old
      · rw [mem_singleton] at new
        subst new
        exact fun container victim => ⟨pinned.marked container victim, ready container victim⟩

/-- Every event keeps the marks. -/
theorem step_sound (event : RetirementEvent)
    (ready : event = .finalize → retirements.FinalizerReady) : (retirements.step event).Sound := by
  cases event with
  | publish container =>
    simp only [step]
    split
    · rename_i fresh
      refine sound.shrink rfl rfl rfl ?_ (fun _ kept => .inl kept) (fun _ kept => kept)
      intro other found
      rcases mem_cons.mp found with rfl | old
      · exact .inr fresh.1
      · exact .inl old
    · exact sound
  | pins action => exact act_sound sound action
  | install => exact install_sound sound [] []
  | activate victims =>
    simp only [step]
    split
    · exact activate_sound sound victims
    · exact sound
  | activateUncertain victims =>
    simp only [step]
    split
    · exact sound.shrink rfl rfl rfl (fun _ found => .inl found) (fun _ kept => .inl kept)
        (fun _ kept => kept)
    · exact sound
  | await cycle => exact await_sound sound cycle
  | unlink cycle container | finalizerUnlink finalizer container =>
    exact withoutUnlinked_sound sound _
  | complete cycle =>
    simp only [step]
    split
    · rename_i retirement running
      split
      · exact (install_sound sound [] retirement.victims).shrink rfl rfl rfl
          (fun _ found => .inl found)
          (fun _ kept => .inl (mem_of_mem_eraseIdx kept)) (fun _ kept => kept)
      · exact sound
    · exact sound
  | abandon cycle =>
    exact sound.shrink rfl rfl rfl (fun _ found => .inl found)
      (fun _ kept => .inl (mem_of_mem_eraseIdx kept)) (fun _ kept => kept)
  | finalize => exact finalize_sound sound (ready rfl)
  | finalizerComplete finalizer =>
    simp only [step]
    split
    · rename_i victims running
      split
      · exact (install_sound sound [] victims).shrink rfl rfl rfl
          (fun _ found => .inl found) (fun _ kept => .inl kept)
          (fun _ kept => mem_of_mem_eraseIdx kept)
      · exact sound
    · exact sound
  | finalizerAbandon finalizer =>
    exact sound.shrink rfl rfl rfl (fun _ found => .inl found) (fun _ kept => .inl kept)
      (fun _ kept => mem_of_mem_eraseIdx kept)

/-- A cycle unlinks after its own drain, a finalizer what was drained when it started. -/
theorem Sound.drained {event : RetirementEvent}
    (unlinked : retirements.unlinks event = some container) : retirements.Drained container := by
  cases event with
  | unlink cycle victim =>
    obtain ⟨retirement, running, allowed⟩ := bind_eq_some_iff.mp unlinked
    obtain ⟨⟨waited, isVictim, _⟩, same⟩ := ite_none_right_eq_some.mp allowed
    cases same
    obtain ⟨_, retired, awaited⟩ := sound.cycles retirement (mem_of_getElem? running)
    obtain ⟨activation, le, shown⟩ := retired _ isVictim
    refine ⟨activation, shown, ?_⟩
    intro generation earlier
    rcases awaited generation (earlier.trans_le le) with waiting | quiet
    · rw [waited] at waiting
      cases waiting
    · exact quiet
  | finalizerUnlink finalizer victim =>
    obtain ⟨victims, running, allowed⟩ := bind_eq_some_iff.mp unlinked
    obtain ⟨⟨isVictim, found⟩, same⟩ := ite_none_right_eq_some.mp allowed
    cases same
    exact (sound.finalizers victims (mem_of_getElem? running) _ isVictim).2 found
  | _ => cases unlinked

theorem Sound.unlinksDrained (events : List RetirementEvent)
    (ready : retirements.FinalizersReady events) : retirements.UnlinksDrained events := by
  induction events generalizing retirements with
  | nil => trivial
  | cons event later continued =>
    refine ⟨fun _ unlinked => sound.drained unlinked, ?_⟩
    exact continued (step_sound sound event ready.1) ready.2

end

/-- A finalizer that starts now can unlink each of its stored victims at once. -/
theorem unlinks_finalize (retiring : container ∈ retirements.pinOnlineGeneration.retiring)
    (found : container ∈ retirements.pinOnlineGeneration.stored) :
    (retirements.step .finalize).unlinks
      (.finalizerUnlink retirements.pinOnlineGeneration.finalizers.length container) =
        some container := by
  have nonempty : retirements.pinOnlineGeneration.retiring ≠ [] := ne_nil_of_mem retiring
  simp only [step, beginFinalizer, if_neg nonempty, unlinks, getElem?_concat_length, bind_some]
  exact if_pos ⟨retiring, found⟩

theorem drained_finalize (container : ContainerId) :
    (retirements.step .finalize).Drained container ↔
      retirements.pinOnlineGeneration.Drained container := by
  simp only [step, beginFinalizer]
  split <;> rfl

theorem UnlinksDrained.last (events last : List RetirementEvent)
    (drained : retirements.UnlinksDrained (events ++ last)) :
    (retirements.run events).UnlinksDrained last := by
  induction events generalizing retirements with
  | nil => exact drained
  | cons event later continued => exact continued drained.2

/-- In a process on any pool, every unlink of a run happens after the drain when each finalizer
starts with every displaced generation drained. A finalizer that starts otherwise can unlink a
victim while a generation from before its retirement is pinned. -/
theorem unlinks_drained_iff_finalizers_ready (stored recovered : List ContainerId)
    (events : List RetirementEvent) :
    ((start stored recovered).FinalizersReady events →
      (start stored recovered).UnlinksDrained events) ∧
    (¬ ((start stored recovered).run events).FinalizerReady →
      ∃ finalizer container, ¬ (start stored recovered).UnlinksDrained
        (events ++ [.finalize, .finalizerUnlink finalizer container])) := by
  refine ⟨(start_sound stored recovered).unlinksDrained events, ?_⟩
  intro unready
  simp only [FinalizerReady, not_forall] at unready
  obtain ⟨container, retiring, present, pinned⟩ := unready
  refine ⟨((start stored recovered).run events).pinOnlineGeneration.finalizers.length, container,
    ?_⟩
  intro drained
  have atEnd := UnlinksDrained.last events _ drained
  exact pinned ((drained_finalize container).mp
    (atEnd.2.1 container (unlinks_finalize retiring present)))

def victimId : ContainerId :=
  ⟨List.replicate 16 1, rfl⟩

/-- A cycle is cancelled while a reader pins the displaced generation 0, and a later finalizer
unlinks the victim. -/
def cancelledCycle (released : List RetirementEvent) : List RetirementEvent :=
  [.install, .activate [victimId], .abandon 0] ++ released ++
    [.finalize, .finalizerUnlink 0 victimId]

/-- The finalizer starts after the reader has released its pin. -/
theorem unlinks_drained_after_release :
    (start [victimId] []).UnlinksDrained (cancelledCycle [.pins (.release 0)]) ∧
      ((start [victimId] []).run (cancelledCycle [.pins (.release 0)])).stored = [] := by
  refine ⟨(unlinks_drained_iff_finalizers_ready [victimId] [] _).1 ?_, rfl⟩
  refine ⟨nofun, nofun, nofun, nofun, ?_, nofun, trivial⟩
  intro _ container retiring _
  have same : container = victimId := mem_singleton.mp retiring
  subst same
  refine ⟨1, rfl, ?_⟩
  intro generation earlier
  rw [lt_one_iff.mp earlier]
  rfl

/-- A finalizer does not wait for the readers of a cancelled cycle. -/
theorem finalizer_unlinks_under_pin :
    ¬ (start [victimId] []).UnlinksDrained (cancelledCycle []) := by
  intro drained
  obtain ⟨_, _, _, _, atUnlink, _⟩ := drained
  obtain ⟨activation, shown, quiet⟩ := atUnlink victimId rfl
  cases shown
  exact absurd (quiet 0 zero_lt_one) (by decide)

end Retirements

end Fastdup.Store.Maintenance
