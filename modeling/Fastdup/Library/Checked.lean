import Mathlib.Algebra.GroupWithZero.Nat
import Mathlib.Data.List.Forall2
import Mathlib.Data.Nat.Basic

/-!
# Computations that fail

Inversion rules for `Except`, alone and under a state: from a result that was returned
they recover every intermediate value and every check that passed. `require` is a check
that ends the computation, and `checkedAdd` and `toU32` are the machine operations that
report overflow.
-/

namespace Fastdup.Library

open List

namespace Checked

variable {ε ε' α β σ : Type} {program : Except ε α} {result : β} {value : α} {items : List α}
  {transform : α → Except ε β} {results : List β} {left right : ℕ} {amount : α → ℕ} {state : σ}

theorem bind_ok {next : α → Except ε β} :
    (program >>= next) = .ok result ↔ ∃ value, program = .ok value ∧ next value = .ok result := by
  cases program with
  | error error | ok value => simp [bind, Except.bind]

@[simp]
theorem ok_bind (value : α) (next : α → Except ε β) : (Except.ok value >>= next) = next value :=
  rfl

@[simp]
theorem error_bind (error : ε) (next : α → Except ε β) :
    (Except.error error >>= next) = .error error :=
  rfl

theorem exists_of_toBool (succeeded : program.toBool = true) : ∃ value, program = .ok value := by
  cases program with
  | error error => cases succeeded
  | ok value => exact ⟨value, rfl⟩

theorem map_ok {transform : α → β} :
    program.map transform = .ok result ↔ ∃ value, program = .ok value ∧
      transform value = result := by
  cases program with
  | error error => simp [Except.map]
  | ok value => simp [Except.map]

theorem mapError_ok {translate : ε → ε'} {result : α} :
    program.mapError translate = .ok result ↔ program = .ok result := by
  cases program with
  | error error | ok value => simp [Except.mapError]

theorem pure_ok {result : α} : (pure value : Except ε α) = .ok result ↔ value = result := by
  simp [pure, Except.pure]

/-- Ends the computation when `failed` holds. -/
def require (failed : Prop) [Decidable failed] (error : ε) : Except ε Unit :=
  if failed then .error error else .ok ()

theorem require_ok {failed : Prop} [Decidable failed] {error : ε} {done : Unit} :
    require failed error = .ok done ↔ ¬ failed := by
  unfold require
  split
  · rename_i failing
    simp [failing]
  · rename_i passing
    simp [passing]

theorem forM_ok {check : α → Except ε Unit} {done : Unit} :
    items.forM check = .ok done ↔ ∀ item ∈ items, check item = .ok () := by
  induction items with
  | nil => simp [pure_ok]
  | cons item rest ih =>
    rw [forall_mem_cons, ← ih]
    constructor
    · intro passed
      rcases bind_ok.mp passed with ⟨_, first, others⟩
      exact ⟨first, others⟩
    · intro passed
      exact bind_ok.mpr ⟨(), passed⟩

variable {step : β → α → Except ε β}

theorem foldlM_keeps {invariant : β → Prop}
    (keeps : ∀ state, ∀ item ∈ items, ∀ next, invariant state → step state item = .ok next →
      invariant next) {start : β} (holds : invariant start)
    (ran : items.foldlM step start = .ok result) : invariant result := by
  induction items generalizing start with
  | nil =>
    rw [foldlM_nil, pure_ok] at ran
    exact ran ▸ holds
  | cons item rest ih =>
    rw [foldlM_cons, bind_ok] at ran
    rcases ran with ⟨next, first, later⟩
    have after := keeps start item mem_cons_self next holds first
    exact ih (fun state other mem => keeps state other (mem_cons_of_mem item mem))
      after later

/-- A fold whose steps succeed and keep a relation to the items done returns. -/
theorem foldlM_reaches {reached : List α → β → Prop} {items : List α}
    (steps : ∀ done state, ∀ item ∈ items, reached done state → ∃ next, step state item = .ok next ∧
      reached (done ++ [item]) next) {done : List α} {start : β} (holds : reached done start) :
    ∃ result, items.foldlM step start = .ok result ∧ reached (done ++ items) result := by
  induction items generalizing done start with
  | nil => exact ⟨start, rfl, (append_nil done).symm ▸ holds⟩
  | cons item rest ih =>
    obtain ⟨next, stepped, after⟩ := steps done start item mem_cons_self holds
    obtain ⟨result, folded, atEnd⟩ :=
      ih (fun done state other mem => steps done state other (mem_cons_of_mem _ mem))
        after
    refine ⟨result, ?_, ?_⟩
    · rw [foldlM_cons, stepped, ok_bind, folded]
    · rwa [append_assoc, singleton_append] at atEnd

theorem foldlM_succeeds {items : List α} {invariant : β → Prop}
    (steps : ∀ state, ∀ item ∈ items, invariant state → ∃ next, step state item = .ok next ∧
      invariant next) {start : β} (holds : invariant start) :
    ∃ result, items.foldlM step start = .ok result ∧ invariant result :=
  @foldlM_reaches _ _ _ step (fun _ state => invariant state) items
    (fun _ state item mem holds => steps state item mem holds) [] start holds

theorem foldlM_adds {step : ℕ → α → Except ε ℕ}
    (adds : ∀ sum, ∀ item ∈ items, step sum item = .ok (sum + amount item)) :
    items.foldlM step 0 = .ok (items.map amount).sum := by
  have steps : ∀ done sum, ∀ item ∈ items, sum = (done.map amount).sum →
      ∃ next, step sum item = .ok next ∧ next = ((done ++ [item]).map amount).sum := by
    rintro done _ item mem rfl
    exact ⟨_, adds _ item mem, by simp⟩
  have start : 0 = (([] : List α).map amount).sum := rfl
  obtain ⟨_, summed, rfl⟩ := foldlM_reaches steps start
  exact summed

theorem mapM_ok : items.mapM transform = .ok results ↔
      List.Forall₂ (fun item result => transform item = .ok result) items results := by
  induction items generalizing results with
  | nil =>
    rw [mapM_nil, pure_ok, forall₂_nil_left_iff]
    exact eq_comm
  | cons item rest ih =>
    simp only [mapM_cons, bind_ok, pure_ok, forall₂_cons_left_iff]
    constructor
    · rintro ⟨result, first, others, mapped, rfl⟩
      exact ⟨result, others, first, ih.mp mapped, rfl⟩
    · rintro ⟨result, others, first, mapped, rfl⟩
      exact ⟨result, first, others, ih.mpr mapped, rfl⟩

theorem exists_of_mapM_eq_ok (mapped : items.mapM transform = .ok results) {item : α}
    (mem : item ∈ items) : ∃ result, transform item = .ok result := by
  induction mapM_ok.mp mapped with
  | nil => cases mem
  | cons first later ih =>
    rcases mem_cons.mp mem with rfl | inRest
    · exact ⟨_, first⟩
    · exact ih (mapM_ok.mpr later) inRest

theorem mapM_cases (transform : α → Except ε β) (items : List α) :
    (∃ results, items.mapM transform = .ok results) ∨
      ∃ item ∈ items, ∃ error, transform item = .error error ∧
        items.mapM transform = .error error := by
  induction items with
  | nil => exact .inl ⟨[], rfl⟩
  | cons item rest ih =>
    cases first : transform item with
    | error error =>
      refine .inr ⟨item, mem_cons_self, error, first, ?_⟩
      rw [mapM_cons, first, error_bind]
    | ok result =>
      rcases ih with ⟨results, mapped⟩ | ⟨other, mem, error, failed, mapped⟩
      · refine .inl ⟨result :: results, ?_⟩
        rw [mapM_cons, first, ok_bind, mapped, ok_bind]
        rfl
      · refine .inr ⟨other, mem_cons_of_mem _ mem, error, failed, ?_⟩
        rw [mapM_cons, first, ok_bind, mapped, error_bind]

theorem ite_ok {condition : Prop} [Decidable condition] {result : α} {error : ε} :
    (if condition then .ok value else .error error : Except ε α) = .ok result ↔
      condition ∧ result = value := by
  by_cases holds : condition
  · rw [if_pos holds, Except.ok.injEq]
    exact ⟨fun same => ⟨holds, same.symm⟩, fun same => same.2.symm⟩
  · rw [if_neg holds]
    exact ⟨(nomatch ·), fun both => absurd both.1 holds⟩

/-- Unsigned 64-bit addition that reports overflow. -/
def checkedAdd (overflow : ε) (left right : ℕ) : Except ε ℕ :=
  if left + right < 2 ^ 64 then .ok (left + right) else .error overflow

variable {overflow : ε}

theorem checkedAdd_ok {sum : ℕ} :
    checkedAdd overflow left right = .ok sum ↔ left + right < 2 ^ 64 ∧ sum = left + right :=
  ite_ok

theorem checkedAdd_of_lt (fits : left + right < 2 ^ 64) :
    checkedAdd overflow left right = .ok (left + right) :=
  checkedAdd_ok.mpr ⟨fits, rfl⟩

/-- Unsigned subtraction that reports a negative difference. -/
def checkedSub (overflow : ε) (left right : ℕ) : Except ε ℕ :=
  if right ≤ left then .ok (left - right) else .error overflow

theorem checkedSub_ok {difference : ℕ} :
    checkedSub overflow left right = .ok difference ↔ right ≤ left ∧ difference = left - right :=
  ite_ok

def toU32 (overflow : ε) (value : ℕ) : Except ε ℕ :=
  if value < 2 ^ 32 then .ok value else .error overflow

theorem toU32_ok {value result : ℕ} :
    toU32 overflow value = .ok result ↔ value < 2 ^ 32 ∧ result = value :=
  ite_ok

/-- A fold whose steps add and check returns the sum, and fails only when it does not fit. -/
theorem foldlM_sum_ok {step : ℕ → α → Except ε ℕ}
    (adds : ∀ item ∈ items, ∀ sum total, sum < 2 ^ 64 →
      (step sum item = .ok total ↔ total = sum + amount item ∧ total < 2 ^ 64)) {start total : ℕ}
    (small : start < 2 ^ 64) : items.foldlM step start = .ok total ↔
      total = start + (items.map amount).sum ∧ total < 2 ^ 64 := by
  induction items generalizing start with
  | nil =>
    simp only [foldlM_nil, pure_ok, map_nil, sum_nil]
    omega
  | cons item rest ih =>
    simp only [foldlM_cons, bind_ok, map_cons, sum_cons]
    have first := adds item mem_cons_self
    have later := fun other mem => adds other (mem_cons_of_mem item mem)
    constructor
    · intro added
      rcases added with ⟨next, stepped, summed⟩
      rcases (first _ _ small).mp stepped with ⟨rfl, fits⟩
      rcases (ih later fits).mp summed with ⟨rfl, bounded⟩
      exact ⟨by omega, bounded⟩
    · intro summed
      rcases summed with ⟨rfl, bounded⟩
      have fits : start + amount item < 2 ^ 64 := by omega
      exact ⟨_, (first _ _ small).mpr ⟨rfl, fits⟩, (ih later fits).mpr ⟨by omega, bounded⟩⟩

theorem foldlM_checkedAdd_ok {total : ℕ} :
    items.foldlM (fun sum item => checkedAdd overflow sum (amount item)) 0 = .ok total ↔
      total = (items.map amount).sum ∧ total < 2 ^ 64 := by
  have adds : ∀ item ∈ items, ∀ sum total, sum < 2 ^ 64 →
      (checkedAdd overflow sum (amount item) = .ok total ↔
        total = sum + amount item ∧ total < 2 ^ 64) := by
    intro item _ sum total _
    rw [checkedAdd_ok]
    omega
  rw [foldlM_sum_ok adds (Nat.two_pow_pos 64), Nat.zero_add]

variable {next : α → StateT σ (Except ε) β}

theorem state_bind_ok {program : StateT σ (Except ε) α} {result : β × σ} :
    (program >>= next) state = .ok result ↔
      ∃ value state', program state = .ok (value, state') ∧ next value state' = .ok result := by
  change (program state >>= fun pair => next pair.1 pair.2) = .ok result ↔ _
  rw [bind_ok]
  exact Prod.exists

theorem state_bind_of_ok {program : StateT σ (Except ε) α} {state' : σ}
    (ran : program state = .ok (value, state')) : (program >>= next) state = next value state' := by
  change (program state >>= fun pair => next pair.1 pair.2) = _
  rw [ran, ok_bind]

theorem state_pure_ok {result : α × σ} :
    (pure value : StateT σ (Except ε) α) state = .ok result ↔ (value, state) = result := by
  exact pure_ok

/-- A computation that leaves the state as it is. -/
def check (program : Except ε α) : StateT σ (Except ε) α :=
  StateT.lift program

theorem check_ok {result : α × σ} : check program state = .ok result ↔
      program = .ok result.1 ∧ result.2 = state := by
  change (program >>= fun value => pure (value, state)) = .ok result ↔ _
  rw [bind_ok]
  constructor
  · rintro ⟨value, ran, same⟩
    rw [pure_ok] at same
    subst same
    exact ⟨ran, rfl⟩
  · rintro ⟨ran, same⟩
    refine ⟨result.1, ran, ?_⟩
    rw [pure_ok, ← same]

theorem check_of_ok (ran : program = .ok value) (state : σ) :
    check program state = .ok (value, state) :=
  check_ok.mpr ⟨ran, rfl⟩

end Checked

end Fastdup.Library
