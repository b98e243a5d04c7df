import Mathlib.Data.Nat.Notation
import Mathlib.Logic.Function.Basic

/-!
# Pinned epochs

A sequence of epochs of which only the last one accepts new work. Work pins the epoch it runs in.
A pin is taken on the current epoch, copied from another pin, or admitted through a snapshot of
an epoch: the admission checks the epoch, counts itself and checks again, and takes the count back
when the epoch was closed in between.

A closed epoch without a pin never gets one again. Installing an epoch closes its predecessor and
registers it, and forgets the registered epochs that nothing refers to any more; so whatever is
neither registered nor current has no pin.
-/

namespace Fastdup.Library

open Function List

/-- The pins on one activation, split by how far each admission has come. -/
structure Epoch where
  held : ℕ
  /-- Admissions that have counted themselves and not yet checked again. -/
  tentative : ℕ
  /-- Admissions that have checked once and not yet counted themselves. -/
  loaded : ℕ
  snapshots : ℕ
  accepting : Bool
  deriving DecidableEq, Repr

namespace Epoch

/-- The pin count that a drain waits for. -/
def active (epoch : Epoch) : ℕ :=
  epoch.held + epoch.tentative

/-- Something still refers to the epoch. -/
def Referenced (epoch : Epoch) : Prop :=
  epoch.held + epoch.tentative + epoch.loaded + epoch.snapshots ≠ 0

instance (epoch : Epoch) : Decidable epoch.Referenced :=
  inferInstanceAs (Decidable (_ ≠ _))

/-- A new epoch, pinned by the one that installs it. -/
def opened : Epoch where
  held := 1
  tentative := 0
  loaded := 0
  snapshots := 0
  accepting := true

/-- The activation admits no more pins. -/
def closed (epoch : Epoch) : Epoch :=
  { epoch with accepting := false }

end Epoch

/-- The epochs `0, …, count - 1`, of which the last one is current. -/
structure Epochs where
  count : ℕ
  epoch : ℕ → Epoch
  registry : List ℕ

/-- What a reader can do with its pins. -/
inductive PinAction where
  | pin
  | clone (index : ℕ)
  | release (index : ℕ)
  | snapshot (index : ℕ)
  | dropSnapshot (index : ℕ)
  | load (index : ℕ)
  | enter (index : ℕ)
  | confirm (index : ℕ)
  deriving DecidableEq, Repr

namespace Epochs

def initial : Epochs where
  count := 0
  epoch _ := { held := 0, tentative := 0, loaded := 0, snapshots := 0, accepting := false }
  registry := []

/-- Whether the epoch was installed and has a successor. -/
def Retired (epochs : Epochs) (index : ℕ) : Prop :=
  index + 1 < epochs.count

/-- Changes one epoch where the condition holds. -/
def change (epochs : Epochs) (index : ℕ) (allowed : Prop) [Decidable allowed] (next : Epoch) :
    Epochs :=
  if allowed then { epochs with epoch := Function.update epochs.epoch index next } else epochs

/-- An action that its epoch does not allow changes nothing. -/
def act (epochs : Epochs) : PinAction → Epochs
  | .pin =>
    let epoch := epochs.epoch (epochs.count - 1)
    epochs.change (epochs.count - 1) (0 < epochs.count) { epoch with held := epoch.held + 1 }
  | .clone index =>
    let epoch := epochs.epoch index
    epochs.change index (0 < epoch.held) { epoch with held := epoch.held + 1 }
  | .release index =>
    let epoch := epochs.epoch index
    epochs.change index (0 < epoch.held) { epoch with held := epoch.held - 1 }
  | .snapshot index =>
    let epoch := epochs.epoch index
    epochs.change index (0 < epoch.held) { epoch with snapshots := epoch.snapshots + 1 }
  | .dropSnapshot index =>
    let epoch := epochs.epoch index
    epochs.change index (0 < epoch.snapshots) { epoch with snapshots := epoch.snapshots - 1 }
  | .load index =>
    let epoch := epochs.epoch index
    epochs.change index (0 < epoch.snapshots ∧ epoch.accepting)
      { epoch with loaded := epoch.loaded + 1 }
  | .enter index =>
    let epoch := epochs.epoch index
    epochs.change index (0 < epoch.loaded)
      { epoch with loaded := epoch.loaded - 1, tentative := epoch.tentative + 1 }
  | .confirm index =>
    let epoch := epochs.epoch index
    epochs.change index (0 < epoch.tentative)
      { epoch with tentative := epoch.tentative - 1,
                   held := if epoch.accepting then epoch.held + 1 else epoch.held }

/-- Closes the current epoch, registers it and opens the next one. -/
def install (epochs : Epochs) : Epochs :=
  if epochs.count = 0 then
    { epochs with count := 1, epoch := Function.update epochs.epoch 0 Epoch.opened }
  else
    let current := epochs.count - 1
    { count := epochs.count + 1,
      epoch := Function.update
        (Function.update epochs.epoch current (epochs.epoch current).closed) epochs.count
        Epoch.opened,
      registry := epochs.registry.filter (fun index => decide (epochs.epoch index).Referenced) ++
        [current] }

/-- What every sequence of epochs keeps: a retired epoch is closed, and it is registered or has no
pin. -/
structure Tracked (epochs : Epochs) : Prop where
  closed : ∀ index, epochs.Retired index → (epochs.epoch index).accepting = false
  registered : ∀ index, epochs.Retired index →
    index ∈ epochs.registry ∨ (epochs.epoch index).held = 0

variable {epochs : Epochs}

theorem tracked_initial : initial.Tracked where
  closed _ _ := rfl
  registered _ _ := .inr rfl

section

variable (index : ℕ) (allowed : Prop) (next : Epoch)

include index allowed next

@[simp]
theorem count_change [Decidable allowed] :
    (epochs.change index allowed next).count = epochs.count := by
  unfold change
  split <;> rfl

@[simp]
theorem registry_change [Decidable allowed] :
    (epochs.change index allowed next).registry = epochs.registry := by
  unfold change
  split <;> rfl

theorem epoch_change [Decidable allowed] (other : ℕ) :
    (epochs.change index allowed next).epoch other = epochs.epoch other ∨
      allowed ∧ other = index ∧ (epochs.change index allowed next).epoch other = next := by
  unfold change
  split
  · rename_i holds
    by_cases same : other = index
    · subst same
      exact .inr ⟨holds, rfl, update_self ..⟩
    · exact .inl (update_of_ne same ..)
  · exact .inl rfl

end

theorem count_act (action : PinAction) : (epochs.act action).count = epochs.count := by
  cases action <;> exact count_change ..

theorem registry_act (action : PinAction) : (epochs.act action).registry = epochs.registry := by
  cases action <;> exact registry_change ..

theorem accepting_act (action : PinAction) (index : ℕ) :
    ((epochs.act action).epoch index).accepting = (epochs.epoch index).accepting := by
  have kept : ∀ (position : ℕ) (allowed : Prop) [Decidable allowed] (next : Epoch),
      next.accepting = (epochs.epoch position).accepting →
        ((epochs.change position allowed next).epoch index).accepting =
          (epochs.epoch index).accepting := by
    intro position allowed _ next same
    rcases epoch_change position allowed next index with old | ⟨_, rfl, new⟩
    · rw [old]
    · rw [new, same]
  cases action <;> exact kept _ _ _ rfl

theorem held_act (action : PinAction) {index : ℕ} (retired : epochs.Retired index)
    (closed : (epochs.epoch index).accepting = false) (quiet : (epochs.epoch index).held = 0) :
    ((epochs.act action).epoch index).held = 0 := by
  have kept : ∀ (position : ℕ) (allowed : Prop) [Decidable allowed] (next : Epoch),
      (allowed → index = position → next.held = 0) →
        ((epochs.change position allowed next).epoch index).held = 0 := by
    intro position allowed _ next unpinned
    rcases epoch_change position allowed next index with old | ⟨holds, same, new⟩
    · rw [old, quiet]
    · rw [new, unpinned holds same]
  unfold Retired at retired
  cases action with
  | pin =>
    apply kept
    intro _ same
    omega
  | clone position | release position | snapshot position =>
    apply kept
    rintro pinned rfl
    omega
  | dropSnapshot position | load position | enter position =>
    apply kept
    rintro _ rfl
    exact quiet
  | confirm position =>
    apply kept
    rintro _ rfl
    simp only [closed, Bool.false_eq_true, if_false]
    exact quiet

theorem Tracked.act (tracked : epochs.Tracked) (action : PinAction) :
    (epochs.act action).Tracked := by
  have same : ∀ index, (epochs.act action).Retired index → epochs.Retired index := by
    intro index retired
    rw [Retired, count_act] at retired
    exact retired
  constructor
  · intro index retired
    rw [accepting_act]
    exact tracked.closed index (same index retired)
  · intro index retired
    rw [registry_act]
    rcases tracked.registered index (same index retired) with registered | quiet
    · exact .inl registered
    · exact .inr (held_act action (same index retired) (tracked.closed index (same index retired))
        quiet)

theorem count_install : epochs.install.count = epochs.count + 1 := by
  unfold install
  split
  · rename_i none
    rw [none]
  · rfl

theorem epoch_install {index : ℕ} (earlier : index < epochs.count) : epochs.install.epoch index =
    if index = epochs.count - 1 then (epochs.epoch index).closed else epochs.epoch index := by
  unfold install
  split
  · omega
  · simp only
    rw [update_of_ne (Nat.ne_of_lt earlier), update_apply]
    split
    · rename_i current
      rw [current]
    · rfl

theorem held_install {index : ℕ} (earlier : index < epochs.count) :
    (epochs.install.epoch index).held = (epochs.epoch index).held := by
  rw [epoch_install earlier]
  split <;> rfl

theorem Tracked.install_registered (tracked : epochs.Tracked) {index : ℕ}
    (earlier : index < epochs.count) :
    index ∈ epochs.install.registry ∨ (epochs.install.epoch index).held = 0 := by
  rw [held_install earlier]
  unfold install
  split
  · omega
  · by_cases current : index = epochs.count - 1
    · rw [current]
      exact .inl (mem_append_right _ (mem_singleton.mpr rfl))
    · rcases tracked.registered index (show index + 1 < epochs.count by omega) with
        registered | quiet
      · by_cases referenced : (epochs.epoch index).Referenced
        · exact .inl (mem_append_left _ (mem_filter.mpr ⟨registered, decide_eq_true referenced⟩))
        · unfold Epoch.Referenced at referenced
          exact .inr (by omega)
      · exact .inr quiet

theorem Tracked.install (tracked : epochs.Tracked) : epochs.install.Tracked := by
  constructor
  · intro index retired
    rw [Retired, count_install] at retired
    rw [epoch_install (by omega)]
    split
    · rfl
    · exact tracked.closed index (show index + 1 < epochs.count by omega)
  · intro index retired
    rw [Retired, count_install] at retired
    exact tracked.install_registered (by omega)

end Epochs

end Fastdup.Library
