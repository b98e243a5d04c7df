import Fastdup.Library.Checked

/-!
# Computations that fail midway

A computation changes a state step by step and may fail between two steps. What was changed before
the failure stays changed. The rules below run such a computation forwards, from what its first
step returns.
-/

namespace Fastdup.Library

open Checked

/-- A computation whose state survives its failure. -/
def Attempt (σ ε α : Type) := σ → Except ε α × σ

namespace Attempt

variable {σ τ ε α β : Type}

instance : Monad (Attempt σ ε) where
  pure value := fun state => (.ok value, state)
  bind program next := fun state =>
    match program state with
    | (.ok value, state') => next value state'
    | (.error error, state') => (.error error, state')

/-- A value that depends on the state. -/
def read (view : σ → α) : Attempt σ ε α :=
  fun state => (.ok (view state), state)

def change (update : σ → σ) : Attempt σ ε Unit :=
  fun state => (.ok (), update state)

/-- A computation that only looks at the state. -/
def settle (result : σ → Except ε α) : Attempt σ ε α :=
  fun state => (result state, state)

/-- A computation on a part of the state. -/
def within (view : σ → τ) (put : τ → σ → σ) (program : Attempt τ ε α) : Attempt σ ε α :=
  fun state => ((program (view state)).1, put (program (view state)).2 state)

section Rules

variable {program : Attempt σ ε α} {next : α → Attempt σ ε β} {state state' : σ} {value : α}
  {error : ε}

theorem bind_of_ok (ran : program state = (.ok value, state')) :
    (program >>= next) state = next value state' := by
  change (match program state with | (.ok value, state') => _ | (.error error, state') => _) = _
  rw [ran]

theorem bind_of_error (failed : program state = (.error error, state')) :
    (program >>= next) state = (.error error, state') := by
  change (match program state with | (.ok value, state') => _ | (.error error, state') => _) = _
  rw [failed]

@[simp]
theorem pure_apply (value : α) (state : σ) : (pure value : Attempt σ ε α) state =
    (.ok value, state) :=
  rfl

@[simp]
theorem read_apply (view : σ → α) (state : σ) :
    (read view : Attempt σ ε α) state = (.ok (view state), state) :=
  rfl

@[simp]
theorem change_apply (update : σ → σ) (state : σ) :
    (change update : Attempt σ ε Unit) state = (.ok (), update state) :=
  rfl

@[simp]
theorem settle_apply (result : σ → Except ε α) (state : σ) :
    settle result state = (result state, state) :=
  rfl

theorem within_of_eq {view : σ → τ} {put : τ → σ → σ} {program : Attempt τ ε α} {state : σ}
    {outcome : Except ε α} {part : τ} (ran : program (view state) = (outcome, part)) :
    within view put program state = (outcome, put part state) := by
  rw [within, ran]

end Rules

end Attempt

end Fastdup.Library
