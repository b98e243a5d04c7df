import Fastdup.Posix.Namespace.Parts

/-!
# Refusals and panics

An operation refuses a request, or it fails an assertion and the run ends. The rules go through
an operation once: they collect what has been checked, and ask for a reason at every assertion.
-/

namespace Fastdup.Posix

open Library Checked Posix

/-- The result is not a panic. -/
def Refusing {α : Type} (result : Except Failure α) : Prop :=
  result ≠ .error .panicked

/-- The result satisfies `post` when there is one, and there is no panic when `tame` holds. -/
def Runs {α : Type} (tame : Prop) (result : Except Failure α) (post : α → Prop) : Prop :=
  match result with
  | .ok value => post value
  | .error (.refused _) => True
  | .error .panicked => ¬ tame

variable {condition : Prop}

namespace Runs

variable {α β : Type} {tame : Prop} {post : β → Prop}

theorem ok {value : β} (holds : post value) : Runs tame (.ok value) post :=
  holds

variable {rest : α → Except Failure β} {first : Except Failure α}

theorem bind {middle : α → Prop} (runs : Runs tame first middle)
    (continues : ∀ value, middle value → Runs tame (rest value) post) :
    Runs tame (first >>= rest) post := by
  cases first with
  | ok value => exact continues value runs
  | error failure =>
    cases failure with
    | refused error => trivial
    | panicked => exact runs

theorem attempt (refusing : tame → Refusing first)
    (continues : ∀ value, first = .ok value → Runs tame (rest value) post) :
    Runs tame (first >>= rest) post := by
  cases first with
  | ok value => exact continues value rfl
  | error failure =>
    cases failure with
    | refused error => trivial
    | panicked => exact fun holds => refusing holds rfl

theorem step (refusing : Refusing first)
    (continues : ∀ value, first = .ok value → Runs tame (rest value) post) :
    Runs tame (first >>= rest) post :=
  attempt (fun _ => refusing) continues

variable {option : Option α}

theorem found {error : PosixError}
    (continues : ∀ value, option = some value → Runs tame (rest value) post) :
    Runs tame (found error option >>= rest) post := by
  cases option with
  | some value => exact continues value rfl
  | none => trivial

section Conditions

variable {error : PosixError} {rest : Unit → Except Failure β}

theorem refuse [Decidable condition] (continues : ¬ condition → Runs tame (rest ()) post) :
    Runs tame (Posix.refuse condition error >>= rest) post := by
  by_cases refused : condition
  · rw [Posix.refuse, require, if_pos refused]
    trivial
  · rw [Posix.refuse, require, if_neg refused]
    exact continues refused

theorem demand [Decidable (¬ condition)] (continues : condition → Runs tame (rest ()) post) :
    Runs tame (Posix.refuse (¬ condition) error >>= rest) post :=
  refuse fun refused => continues (not_not.mp refused)

end Conditions

theorem expect (found : tame → option ≠ none)
    (continues : ∀ value, option = some value → Runs tame (rest value) post) :
    Runs tame (expect option >>= rest) post := by
  cases option with
  | some value => exact continues value rfl
  | none => exact fun holds => found holds rfl

theorem asserted [Decidable condition] (holds : tame → condition) :
    Runs tame (assertThat condition) fun _ => condition := by
  by_cases condition_ : condition
  · rw [assertThat, require, if_neg (not_not.mpr condition_)]
    exact condition_
  · rw [assertThat, require, if_pos condition_]
    exact fun tameness => condition_ (holds tameness)

theorem assertThat [Decidable condition] {rest : Unit → Except Failure β} (holds : tame → condition)
    (continues : condition → Runs tame (rest ()) post) :
    Runs tame (assertThat condition >>= rest) post :=
  bind (asserted holds) fun _ => continues

theorem ite [Decidable condition] {first second : Except Failure β}
    (yes : condition → Runs tame first post) (no : ¬ condition → Runs tame second post) :
    Runs tame (if condition then first else second) post := by
  split
  · rename_i holds
    exact yes holds
  · rename_i fails
    exact no fails

variable {result : Except Failure β}

theorem of_ok {value : β} (runs : Runs tame result post) (done : result = .ok value) :
    post value := by
  rw [done] at runs
  exact runs

theorem refusing (runs : Runs tame result post) (holds : tame) : Refusing result := by
  intro panicked
  rw [panicked] at runs
  exact runs holds

theorem mono {weaker : β → Prop} (runs : Runs tame result post)
    (implies : ∀ value, post value → weaker value) : Runs tame result weaker := by
  cases result with
  | ok value => exact implies value runs
  | error failure =>
    cases failure with
    | refused error => trivial
    | panicked => exact runs

theorem strengthen {tamer : Prop} (implies : tamer → tame) (runs : Runs tame result post) :
    Runs tamer result post := by
  cases result with
  | ok value => exact runs
  | error failure =>
    cases failure with
    | refused error => trivial
    | panicked => exact fun holds => runs (implies holds)

theorem map {result : Except Failure α} {change : α → β}
    (runs : Runs tame result fun value => post (change value)) : Runs tame (result.map change)
      post := by
  cases result with
  | ok value => exact runs
  | error failure =>
    cases failure with
    | refused error => trivial
    | panicked => exact runs

theorem forM {items : List α} {check : α → Except Failure Unit}
    (checks : ∀ item ∈ items, Runs tame (check item) fun _ => True) :
    Runs tame (items.forM check) fun _ => True := by
  induction items with
  | nil => trivial
  | cons item rest ih =>
    refine bind (checks item List.mem_cons_self) fun _ _ => ih fun other mem => ?_
    exact checks other (List.mem_cons_of_mem item mem)

end Runs

namespace Refusing

variable {α β : Type}

theorem ok {value : α} : Refusing (.ok value) := by
  simp [Refusing]

variable {rest : α → Except Failure β}

theorem bind {first : Except Failure α} (refusing : Refusing first)
    (continues : ∀ value, Refusing (rest value)) : Refusing (first >>= rest) := by
  cases first with
  | ok value => exact continues value
  | error failure => simpa [Refusing, error_bind] using refusing

theorem expect {value : α} (continues : Refusing (rest value)) :
    Refusing (expect (some value) >>= rest) :=
  continues

variable {error : PosixError}

theorem refuse [Decidable condition] : Refusing (refuse condition error) := by
  rw [Posix.refuse, require]
  split
  · simp [Refusing]
  · simp [Refusing]

theorem found {option : Option α} : Refusing (found error option) := by
  cases option with
  | none | some value => simp [Refusing, Posix.found]

theorem reserve {error : Option PosixError} : Refusing (reserve error) := by
  cases error with
  | none | some error => simp [Refusing, Posix.reserve]

theorem checkedAdd {left right : ℕ} : Refusing (checkedAdd (.refused error) left right) := by
  unfold Checked.checkedAdd
  split
  · simp [Refusing]
  · simp [Refusing]

theorem mapError {result : Except PosixError α} : Refusing (result.mapError Failure.refused) := by
  cases result with
  | ok value | error error => simp [Refusing, Except.mapError]

theorem next {sequence : ℕ} : Refusing (next sequence) :=
  checkedAdd

theorem nextLinks {links : ℕ} : Refusing (nextLinks links) :=
  bind refuse fun _ => ok

end Refusing

namespace Catalog

variable {config : NamespaceConfig} {catalog : Catalog}

theorem refusing_validateComponent {name : Bytes} : Refusing (validateComponent config name) :=
  .bind .refuse fun _ => .refuse

variable {id : ℕ} {truncate : Bool}

theorem refusing_validateDirectory : Refusing (catalog.validateDirectory id) :=
  .bind .found fun _ => .refuse

theorem refusing_validateMutableDirectory : Refusing (catalog.validateMutableDirectory id) :=
  .bind .found fun _ => .bind .refuse fun _ => .refuse

theorem refusing_allocateInode : Refusing catalog.allocateInode :=
  .bind .refuse fun _ => .bind .next fun _ => .ok

theorem refusing_nextMutationSequences {sequence : ℕ} :
    Refusing (catalog.nextMutationSequences id sequence) := by
  refine .bind .next fun inodeSequence => ?_
  split
  · exact .ok
  · exact .bind .next fun _ => .ok

theorem refusing_truncation {inode : Inode} : Refusing (truncation inode truncate) := by
  unfold truncation
  split
  · exact .bind .next fun _ => .ok
  · exact .ok

theorem refusing_validateOpen {inode : Inode} {access : AccessMode} :
    Refusing (validateOpen inode access truncate) :=
  .bind .refuse fun _ => .bind .refuse fun _ => .bind .refuse fun _ => .refuse

theorem refusing_reserveTruncation {ambient : Ambient} {sequence : Option ℕ} :
    Refusing (reserveTruncation ambient sequence) := by
  cases sequence with
  | none => exact .ok
  | some sequence => exact .reserve

theorem refusing_nextParentSequence {namespaceSequence : ℕ} {parent : Inode} :
    Refusing (nextParentSequence id parent namespaceSequence) := by
  unfold nextParentSequence
  split
  · exact .ok
  · exact .next

end Catalog

end Fastdup.Posix
