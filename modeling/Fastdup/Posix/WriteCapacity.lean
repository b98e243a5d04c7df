import Fastdup.Posix.Mutation
import Mathlib.Order.Interval.Finset.Nat

/-!
# Metadata credit of appends

A write at the exact end of a file spends metadata credit that earlier appends of the dirty epoch
have paid for: sixteen MiB of the file for four path claims. All that the epoch keeps of the credit
is where it ends, and a truncation leaves that end as it is. The credit covers what is appended as
long as no truncation goes behind the place where the credit was opened.
-/

namespace Fastdup.Posix

open Library Checked Finset Nat Option List

def MUTATION_METADATA_INCREMENT_BYTES : ℕ := 2 * 1024 * 1024
def SINGLE_LEAF_APPEND_COVERAGE_END_BYTES : ℕ := 8 * 1024 * 1024
def SINGLE_LEAF_METADATA_BYTES : ℕ := 48 * 1024
def SEQUENTIAL_APPEND_COVERAGE_BYTES : ℕ := 16 * 1024 * 1024
def SEQUENTIAL_APPEND_PATH_CLAIMS : ℕ := 4

/-- What a write reserves, and how far the append credit then reaches. -/
structure WriteCapacityPlan where
  metadataBytes : ℕ
  appendMetadataCoveredEnd : Option ℕ
  deriving DecidableEq

/-- The fields of a dirty epoch that decide what a write is charged. -/
structure AppendEpoch where
  baseSize : ℕ
  resultSize : ℕ
  appendMetadataCoveredEnd : Option ℕ
  deriving DecidableEq

namespace AppendEpoch

def new (baseSize : ℕ) : AppendEpoch where
  baseSize := baseSize
  resultSize := baseSize
  appendMetadataCoveredEnd := none

/-- The credit that an append at `offset` can continue. -/
def continued (epoch : AppendEpoch) (offset : ℕ) : Option ℕ :=
  epoch.appendMetadataCoveredEnd.filter fun coveredEnd => coveredEnd ≥ offset

/-- The charge for an append beyond the credit, in whole windows. -/
def planWindows (coveredEnd initialMetadataBytes finish : ℕ) :
    Except PosixError WriteCapacityPlan := do
  let windows := (finish - coveredEnd + (SEQUENTIAL_APPEND_COVERAGE_BYTES - 1)) /
    SEQUENTIAL_APPEND_COVERAGE_BYTES
  require (windows * SEQUENTIAL_APPEND_PATH_CLAIMS * MUTATION_METADATA_INCREMENT_BYTES +
    initialMetadataBytes ≥ 2 ^ 64) .noSpace
  require (windows * SEQUENTIAL_APPEND_COVERAGE_BYTES ≥ 2 ^ 64) .noSpace
  return { metadataBytes := windows * SEQUENTIAL_APPEND_PATH_CLAIMS *
             MUTATION_METADATA_INCREMENT_BYTES + initialMetadataBytes
           appendMetadataCoveredEnd :=
             some (min (coveredEnd + windows * SEQUENTIAL_APPEND_COVERAGE_BYTES) (2 ^ 64 - 1)) }

/-- A file that outgrows its single leaf pays for the rest of an ordinary window first. -/
def planSequential (coveredEnd finish : ℕ) : Except PosixError WriteCapacityPlan :=
  if coveredEnd = SINGLE_LEAF_APPEND_COVERAGE_END_BYTES then
    planWindows SEQUENTIAL_APPEND_COVERAGE_BYTES (SEQUENTIAL_APPEND_PATH_CLAIMS *
      MUTATION_METADATA_INCREMENT_BYTES - SINGLE_LEAF_METADATA_BYTES) finish
  else planWindows coveredEnd 0 finish

/-- What a write at the end must reserve for metadata, if the open credit does not cover it. -/
def planWriteCapacity (epoch : AppendEpoch) (offset length : ℕ) :
    Except PosixError WriteCapacityPlan :=
  if offset ≠ epoch.resultSize then
    .ok { metadataBytes := MUTATION_METADATA_INCREMENT_BYTES, appendMetadataCoveredEnd := none }
  else do
    let finish ← checkedAdd .fileTooLarge offset length
    let coveredEnd := (epoch.continued offset).getD offset
    if epoch.baseSize = 0 ∧ epoch.appendMetadataCoveredEnd = none ∧
        finish ≤ SINGLE_LEAF_APPEND_COVERAGE_END_BYTES then
      return { metadataBytes := SINGLE_LEAF_METADATA_BYTES
               appendMetadataCoveredEnd := some SINGLE_LEAF_APPEND_COVERAGE_END_BYTES }
    else if finish ≤ coveredEnd then
      return { metadataBytes := 0, appendMetadataCoveredEnd := none }
    else planSequential coveredEnd finish

/-- The end of the credit after a plan has been accepted. -/
def extend (existing planned : Option ℕ) : Option ℕ :=
  planned.elim existing fun coveredEnd =>
    some (existing.elim coveredEnd fun present => max present coveredEnd)

/-- Installs the credit of the plan. -/
def acceptWriteCapacity (epoch : AppendEpoch) (plan : WriteCapacityPlan) : AppendEpoch :=
  { epoch with
    appendMetadataCoveredEnd :=
      extend epoch.appendMetadataCoveredEnd plan.appendMetadataCoveredEnd }

def write (epoch : AppendEpoch) (offset length : ℕ) : AppendEpoch :=
  { epoch with resultSize := max epoch.resultSize (offset + length) }

def truncate (epoch : AppendEpoch) (length : ℕ) : AppendEpoch :=
  { epoch with resultSize := length }

end AppendEpoch

/-- The requests that move the end of a file. -/
inductive AppendRequest where
  | write (offset length : ℕ)
  | setLength (length : ℕ)

/-- An epoch with what its writes have been charged, the positions of the file that hold a byte of
a write planned at the end of the file, and the position at which the present credit began. -/
structure AppendLedger where
  epoch : AppendEpoch
  charged : ℕ
  appended : Finset ℕ
  opened : ℕ

variable {plan : WriteCapacityPlan}

namespace AppendLedger

def start (baseSize : ℕ) : AppendLedger where
  epoch := .new baseSize
  charged := 0
  appended := ∅
  opened := 0

def write (ledger : AppendLedger) (offset length : ℕ) (plan : WriteCapacityPlan) :
    AppendLedger where
  epoch := (ledger.epoch.write offset length).acceptWriteCapacity plan
  charged := ledger.charged + plan.metadataBytes
  appended :=
    if offset = ledger.epoch.resultSize then ledger.appended ∪ Finset.Ico offset (offset + length)
    else ledger.appended \ Finset.Ico offset (offset + length)
  opened :=
    if offset = ledger.epoch.resultSize ∧ ledger.epoch.continued offset = none then offset
    else ledger.opened

/-- A write of the ledger, refused as the source refuses it. -/
def admitWrite (maximumFileBytes : ℕ) (ledger : AppendLedger) (offset length : ℕ) :
    Except PosixError AppendLedger := do
  require (length ≥ 2 ^ 32) .fileTooLarge
  if length = 0 then return ledger
  else
    let finish ← checkedAdd .fileTooLarge offset length
    require (finish > maximumFileBytes) .fileTooLarge
    let plan ← ledger.epoch.planWriteCapacity offset length
    return ledger.write offset length plan

def truncate (ledger : AppendLedger) (length : ℕ) : AppendLedger :=
  { ledger with
    epoch := ledger.epoch.truncate length
    appended := ledger.appended.filter (· < length) }

/-- A refused request changes nothing. -/
def step (maximumFileBytes : ℕ) (ledger : AppendLedger) : AppendRequest → AppendLedger
  | .write offset length => (admitWrite maximumFileBytes ledger offset length).toOption.getD ledger
  | .setLength length => if length > maximumFileBytes then ledger else ledger.truncate length

def run (maximumFileBytes : ℕ) (ledger : AppendLedger) (requests : List AppendRequest) :
    AppendLedger :=
  requests.foldl (step maximumFileBytes) ledger

/-- A truncation does not go behind the place where the present credit began. -/
def Careful (ledger : AppendLedger) : AppendRequest → Prop
  | .write _ _ => True
  | .setLength length => length < ledger.epoch.resultSize → ledger.opened ≤ length

/-- No truncation of the run goes behind the credit that is then open. -/
def CarefulRun (maximumFileBytes : ℕ) (ledger : AppendLedger) : List AppendRequest → Prop
  | [] => True
  | request :: rest =>
    ledger.Careful request ∧ CarefulRun maximumFileBytes (ledger.step maximumFileBytes request)
      rest

/-- Four path claims are paid for every complete window of appended bytes. -/
def Prepaid (ledger : AppendLedger) : Prop :=
  SEQUENTIAL_APPEND_PATH_CLAIMS * MUTATION_METADATA_INCREMENT_BYTES *
    (ledger.appended.card / SEQUENTIAL_APPEND_COVERAGE_BYTES) ≤ ledger.charged

/-- A sum of the charges for whole windows. -/
def WholeWindows (bytes : ℕ) : Prop :=
  SEQUENTIAL_APPEND_PATH_CLAIMS * MUTATION_METADATA_INCREMENT_BYTES ∣ bytes

theorem WholeWindows.add {left right : ℕ} (first : WholeWindows left)
    (second : WholeWindows right) : WholeWindows (left + right) :=
  Nat.dvd_add first second

theorem wholeWindows_one : WholeWindows 8388608 := by
  simp [WholeWindows, SEQUENTIAL_APPEND_PATH_CLAIMS, MUTATION_METADATA_INCREMENT_BYTES]

theorem WholeWindows.le {bytes : ℕ} (whole : WholeWindows bytes) (positive : 0 < bytes) :
    8388608 ≤ bytes := by
  have bounded := le_of_dvd positive whole
  simpa only [SEQUENTIAL_APPEND_PATH_CLAIMS, MUTATION_METADATA_INCREMENT_BYTES, reduceMul]
    using bounded

/-- The windows that have been paid for make up for the bytes in front of the present credit and for
the credit itself, up to the half window of a single leaf. -/
def Covers (charged appended credit : ℕ) : Prop :=
  ∃ paid, WholeWindows paid ∧ appended + credit ≤ 2 * paid + 8388608 ∧ paid ≤ charged

theorem Covers.nothing (charged : ℕ) {credit : ℕ} (small : credit ≤ 8388608) :
    Covers charged 0 credit :=
  ⟨0, Nat.dvd_zero _, by omega, Nat.zero_le _⟩

/-- What has been appended lies below the end that the credit covers. -/
structure Credited (ledger : AppendLedger) (coveredEnd : ℕ) : Prop where
  begun : ledger.opened ≤ ledger.epoch.resultSize
  inside : ∀ position ∈ ledger.appended, position < coveredEnd
  ordered : ledger.opened ≤ coveredEnd
  charged : SINGLE_LEAF_METADATA_BYTES ≤ ledger.charged
  covers : Covers ledger.charged (ledger.appended.filter (· < ledger.opened)).card
    (coveredEnd - ledger.opened)

/-- The invariant of the ledger with and without an open credit. -/
structure Accounted (ledger : AppendLedger) : Prop where
  stored : ∀ position ∈ ledger.appended, position < ledger.epoch.resultSize
  unpaid : ledger.epoch.appendMetadataCoveredEnd = none → ledger.appended = ∅
  credited : ∀ coveredEnd, ledger.epoch.appendMetadataCoveredEnd = some coveredEnd →
    ledger.Credited coveredEnd

variable {ledger : AppendLedger} {maximumFileBytes offset length coveredEnd : ℕ}

theorem Credited.le_charged (credited : ledger.Credited coveredEnd) : 49152 ≤ ledger.charged := by
  have charged := credited.charged
  simpa only [SINGLE_LEAF_METADATA_BYTES, reduceMul] using charged

/-- The appended bytes in front of the credit, and the credit, bound all appended bytes. -/
theorem Credited.card_le (credited : ledger.Credited coveredEnd) : ledger.appended.card ≤
      (ledger.appended.filter (· < ledger.opened)).card + (coveredEnd - ledger.opened) := by
  rw [← card_filter_add_card_filter_not (· < ledger.opened), ← card_Ico]
  apply Nat.add_le_add_left
  apply card_le_card
  intro position mem
  rw [Finset.mem_filter] at mem
  have inside := credited.inside position mem.1
  exact Finset.mem_Ico.mpr ⟨Nat.le_of_not_lt mem.2, inside⟩

theorem accounted_start (baseSize : ℕ) : (start baseSize).Accounted where
  stored := fun _ mem => absurd mem (notMem_empty _)
  unpaid := fun _ => rfl
  credited := nofun

section

variable (accounted : ledger.Accounted)

include accounted

theorem Accounted.prepaid : ledger.Prepaid := by
  unfold Prepaid
  cases covered : ledger.epoch.appendMetadataCoveredEnd with
  | none =>
    rw [accounted.unpaid covered, Finset.card_empty, Nat.zero_div, Nat.mul_zero]
    exact zero_le _
  | some coveredEnd =>
    have credited := accounted.credited coveredEnd covered
    have bounded := credited.card_le
    rcases credited.covers with ⟨paid, ⟨windows, whole⟩, enough, within⟩
    simp only [SEQUENTIAL_APPEND_COVERAGE_BYTES, SEQUENTIAL_APPEND_PATH_CLAIMS,
      MUTATION_METADATA_INCREMENT_BYTES, Nat.reduceMul] at whole ⊢
    omega

/-- Bytes may go and the charge may grow as long as the end of the credit stays where it is. -/
theorem Accounted.weaken (after : AppendLedger)
    (same : after.epoch.appendMetadataCoveredEnd = ledger.epoch.appendMetadataCoveredEnd)
    (opened : after.opened = ledger.opened) (charged : ledger.charged ≤ after.charged)
    (fewer : after.appended ⊆ ledger.appended)
    (stored : ∀ position ∈ after.appended, position < after.epoch.resultSize)
    (begun : ledger.opened ≤ ledger.epoch.resultSize → ledger.opened ≤ after.epoch.resultSize) :
    after.Accounted := by
  constructor
  case stored => exact stored
  case unpaid =>
    intro uncovered
    rw [same] at uncovered
    exact subset_empty.mp (accounted.unpaid uncovered ▸ fewer)
  case credited =>
    intro coveredEnd covered
    rw [same] at covered
    have credited := accounted.credited coveredEnd covered
    constructor
    case begun => exact opened ▸ begun credited.begun
    case inside => exact fun position mem => credited.inside position (fewer mem)
    case ordered => exact opened ▸ credited.ordered
    case charged => exact credited.charged.trans charged
    case covers =>
      rw [opened]
      have kept := card_le_card (filter_subset_filter (· < ledger.opened) fewer)
      rcases credited.covers with ⟨paid, whole, enough, within⟩
      exact ⟨paid, whole, by omega, within.trans charged⟩

theorem Accounted.truncate (careful : ledger.Careful (.setLength length)) :
    (ledger.truncate length).Accounted := by
  apply accounted.weaken (ledger.truncate length) rfl rfl le_rfl (filter_subset _ _)
  · intro position mem
    exact (mem_filter.mp mem).2
  · intro begun
    change ledger.opened ≤ length
    by_cases shrinks : length < ledger.epoch.resultSize
    · exact careful shrinks
    · omega

omit accounted in
theorem planSequential_eq_ok {finish : ℕ}
    (planned : AppendEpoch.planSequential coveredEnd finish = .ok plan) :
    ∃ base paid, WholeWindows paid ∧ finish ≤ base + 2 * paid ∧
      plan.appendMetadataCoveredEnd = some (min (base + 2 * paid) (2 ^ 64 - 1)) ∧
      (coveredEnd = 8388608 ∧ base = 16777216 ∧ plan.metadataBytes = paid + 8339456 ∨
        base = coveredEnd ∧ plan.metadataBytes = paid) := by
  have windowed : ∀ base initial, AppendEpoch.planWindows base initial finish = .ok plan →
      ∃ paid, WholeWindows paid ∧ finish ≤ base + 2 * paid ∧
        plan.appendMetadataCoveredEnd = some (min (base + 2 * paid) (2 ^ 64 - 1)) ∧
        plan.metadataBytes = paid + initial := by
    intro base initial windowed
    simp only [AppendEpoch.planWindows, bind_ok, pure_ok,
      SEQUENTIAL_APPEND_COVERAGE_BYTES, SEQUENTIAL_APPEND_PATH_CLAIMS,
      MUTATION_METADATA_INCREMENT_BYTES, reduceMul, reduceSub] at windowed
    rcases windowed with ⟨_, _, _, _, rfl⟩
    generalize windowsEq : (finish - base + 16777215) / 16777216 = windows
    refine ⟨windows * 4 * 2097152, ?_, by omega, ?_, rfl⟩
    · exact ⟨windows, by
        simp only [SEQUENTIAL_APPEND_PATH_CLAIMS, MUTATION_METADATA_INCREMENT_BYTES]
        omega⟩
    · have doubled : 2 * (windows * 4 * 2097152) = windows * 16777216 := by omega
      rw [doubled]
  rw [AppendEpoch.planSequential] at planned
  by_cases half : coveredEnd = SINGLE_LEAF_APPEND_COVERAGE_END_BYTES
  · rw [if_pos half] at planned
    rcases windowed _ _ planned with ⟨paid, whole, reached, ending, charge⟩
    exact ⟨16777216, paid, whole, reached, ending, .inl ⟨half, rfl, charge⟩⟩
  · rw [if_neg half] at planned
    rcases windowed _ _ planned with ⟨paid, whole, reached, ending, charge⟩
    exact ⟨coveredEnd, paid, whole, reached, ending, .inr ⟨rfl, charge.trans (add_zero _)⟩⟩

theorem Accounted.overwrite (elsewhere : offset ≠ ledger.epoch.resultSize)
    (planned : ledger.epoch.planWriteCapacity offset length = .ok plan) :
    (ledger.write offset length plan).Accounted := by
  rw [AppendEpoch.planWriteCapacity, if_pos elsewhere] at planned
  cases planned
  have fewer : (ledger.write offset length
      ⟨MUTATION_METADATA_INCREMENT_BYTES, none⟩).appended ⊆ ledger.appended := by
    rw [write, if_neg elsewhere]
    exact sdiff_subset
  apply accounted.weaken (ledger.write offset length _) rfl (if_neg fun here => elsewhere here.1)
    (le_add_right _ _) fewer
  · intro position mem
    exact lt_of_lt_of_le (accounted.stored position (fewer mem)) (le_max_left _ _)
  · exact fun begun => begun.trans (le_max_left _ _)

omit accounted in
theorem appended_write {plan : WriteCapacityPlan} (atEnd : offset = ledger.epoch.resultSize) :
    (ledger.write offset length plan).appended =
      ledger.appended ∪ Finset.Ico offset (offset + length) :=
  if_pos atEnd

/-- An append whose plan leaves the credit with an end that it does not go beyond. -/
theorem Accounted.append (atEnd : offset = ledger.epoch.resultSize) {plan : WriteCapacityPlan}
    (covered : AppendEpoch.extend ledger.epoch.appendMetadataCoveredEnd
      plan.appendMetadataCoveredEnd = some coveredEnd) (reached : offset + length ≤ coveredEnd)
    (charged : SINGLE_LEAF_METADATA_BYTES ≤ ledger.charged + plan.metadataBytes)
    (begun : (ledger.write offset length plan).opened ≤ offset)
    (covers : Covers (ledger.charged + plan.metadataBytes)
      (ledger.appended.filter (· < (ledger.write offset length plan).opened)).card
      (coveredEnd - (ledger.write offset length plan).opened)) :
    (ledger.write offset length plan).Accounted := by
  generalize openedEq : (ledger.write offset length plan).opened = opened at begun covers
  have appended := @appended_write ledger offset length plan atEnd
  have stored : ∀ position ∈ (ledger.write offset length plan).appended,
      position < offset + length := by
    intro position mem
    rw [appended, mem_union, mem_Ico] at mem
    rcases mem with old | new
    · have before := accounted.stored position old
      omega
    · exact new.2
  constructor
  case stored =>
    exact fun position mem => lt_of_lt_of_le (stored position mem) (le_max_right _ _)
  case unpaid =>
    intro uncovered
    cases covered.symm.trans uncovered
  case credited =>
    intro other found
    cases covered.symm.trans found
    constructor
    case begun =>
      rw [openedEq]
      exact (begun.trans (le_add_right offset length)).trans (le_max_right _ _)
    case inside => exact fun position mem => lt_of_lt_of_le (stored position mem) reached
    case ordered =>
      omega
    case charged => exact charged
    case covers =>
      -- Nothing that is new lies in front of the credit.
      have front : (ledger.write offset length plan).appended.filter (· < opened) =
          ledger.appended.filter (· < opened) := by
        rw [appended, filter_union, union_eq_left]
        intro position mem
        rw [Finset.mem_filter, Finset.mem_Ico] at mem
        omega
      rw [openedEq, front]
      exact covers

omit accounted in
theorem card_filter_lt_le (positions : Finset ℕ) (bound : ℕ) :
    (positions.filter (· < bound)).card ≤ bound := by
  have below : positions.filter (· < bound) ⊆ Finset.range bound :=
    fun _ mem => Finset.mem_range.mpr (Finset.mem_filter.mp mem).2
  exact (card_le_card below).trans_eq (card_range bound)

theorem Accounted.open (atEnd : offset = ledger.epoch.resultSize)
    (fresh : ledger.epoch.continued offset = none) {plannedEnd : ℕ}
    (planned : plan.appendMetadataCoveredEnd = some plannedEnd)
    (reached : offset + length ≤ plannedEnd)
    (charged : SINGLE_LEAF_METADATA_BYTES ≤ ledger.charged + plan.metadataBytes)
    (covers : Covers (ledger.charged + plan.metadataBytes) ledger.appended.card
      (plannedEnd - offset)) : (ledger.write offset length plan).Accounted := by
  have opened : (ledger.write offset length plan).opened = offset := if_pos ⟨atEnd, fresh⟩
  have covered : AppendEpoch.extend ledger.epoch.appendMetadataCoveredEnd
      plan.appendMetadataCoveredEnd = some plannedEnd := by
    rw [planned]
    rw [AppendEpoch.continued, filter_eq_none_iff] at fresh
    cases existing : ledger.epoch.appendMetadataCoveredEnd with
    | none => rfl
    | some found =>
      have short := fresh found existing
      have larger : max found plannedEnd = plannedEnd := by
        rw [decide_eq_true_eq] at short
        omega
      exact congrArg some larger
  have all : ledger.appended.filter (· < offset) = ledger.appended := by
    apply filter_true_of_mem
    intro position mem
    exact atEnd ▸ accounted.stored position mem
  apply accounted.append atEnd covered reached charged (le_of_eq opened)
  rw [opened, all]
  exact covers

/-- The windows that an append pays for when no credit reaches the end of the file. -/
theorem Accounted.openPlanned (atEnd : offset = ledger.epoch.resultSize) (positive : 0 < length)
    (fits : offset + length < 2 ^ 64) (fresh : ledger.epoch.continued offset = none)
    (planned : AppendEpoch.planSequential offset (offset + length) = .ok plan) :
    (ledger.write offset length plan).Accounted := by
  have all : ledger.appended.card ≤ offset := by
    have bounded := card_filter_lt_le ledger.appended offset
    rwa [filter_true_of_mem fun position mem => atEnd ▸ accounted.stored position mem]
      at bounded
  -- What had been paid for before is known when something had been appended.
  have before : Covers ledger.charged ledger.appended.card 0 ∧
      (ledger.appended.card = 0 ∨ 49152 ≤ ledger.charged) := by
    cases existing : ledger.epoch.appendMetadataCoveredEnd with
    | none =>
      rw [accounted.unpaid existing, card_empty]
      exact ⟨Covers.nothing _ (zero_le _), .inl rfl⟩
    | some found =>
      have credited := accounted.credited found existing
      have bounded := credited.card_le
      rcases credited.covers with ⟨paid, whole, enough, within⟩
      exact ⟨⟨paid, whole, by omega, within⟩, .inr credited.le_charged⟩
  rcases before with ⟨⟨earlier, earlierWhole, enough, within⟩, known⟩
  rcases planSequential_eq_ok planned with ⟨base, paid, whole, reached, ending, half | ordinary⟩
  · apply accounted.open atEnd fresh ending (by omega)
    · simp only [SINGLE_LEAF_METADATA_BYTES, reduceMul]
      omega
    · rcases known with nothing | something
      · exact ⟨paid, whole, by omega, by omega⟩
      · exact ⟨paid + 8388608, whole.add wholeWindows_one, by omega, by omega⟩
  · apply accounted.open atEnd fresh ending (by omega)
    · have charged := whole.le (by omega)
      simp only [SINGLE_LEAF_METADATA_BYTES, reduceMul]
      omega
    · exact ⟨earlier + paid, earlierWhole.add whole, by omega, by omega⟩

omit accounted in
theorem Credited.continued (credited : ledger.Credited coveredEnd) {finish : ℕ}
    (small : finish < 2 ^ 64) (planned : AppendEpoch.planSequential coveredEnd finish = .ok plan) :
    ∃ plannedEnd, plan.appendMetadataCoveredEnd = some plannedEnd ∧ finish ≤ plannedEnd ∧
      Covers (ledger.charged + plan.metadataBytes) (ledger.appended.filter (· < ledger.opened)).card
        (max coveredEnd plannedEnd - ledger.opened) := by
  have front := card_filter_lt_le ledger.appended ledger.opened
  have ordered := credited.ordered
  have charged := credited.le_charged
  rcases credited.covers with ⟨earlier, earlierWhole, enough, within⟩
  rcases planSequential_eq_ok planned with ⟨base, paid, whole, reached, ending, half | ordinary⟩
  · exact ⟨_, ending, by omega, paid + 8388608, whole.add wholeWindows_one, by omega, by omega⟩
  · exact ⟨_, ending, by omega, earlier + paid, earlierWhole.add whole, by omega, by omega⟩

theorem Accounted.appendPlanned (atEnd : offset = ledger.epoch.resultSize) (positive : 0 < length)
    (fits : offset + length < 2 ^ 64) {plan : WriteCapacityPlan}
    (planned : ledger.epoch.planWriteCapacity offset length = .ok plan) :
    (ledger.write offset length plan).Accounted := by
  rw [AppendEpoch.planWriteCapacity, if_neg (not_not.mpr atEnd), checkedAdd_of_lt fits,
    ok_bind] at planned
  split at planned
  case isTrue single =>
    -- The first append to an empty file buys a single leaf.
    cases planned
    have empty := accounted.unpaid single.2.1
    apply accounted.open atEnd (by rw [AppendEpoch.continued, single.2.1]; rfl) rfl single.2.2
      (le_add_left _ _)
    rw [empty, card_empty]
    apply Covers.nothing
    simp [SINGLE_LEAF_APPEND_COVERAGE_END_BYTES]
  case isFalse ordinary =>
    cases continued : ledger.epoch.continued offset with
    | none =>
      rw [continued, getD_none, if_neg (by omega)] at planned
      exact accounted.openPlanned atEnd positive fits continued planned
    | some found =>
      simp only [continued, getD_some] at planned
      rw [AppendEpoch.continued, filter_eq_some_iff, decide_eq_true_eq] at continued
      have credited := accounted.credited found continued.1
      have unopened : ∀ plan, (ledger.write offset length plan).opened = ledger.opened := by
        intro plan
        apply if_neg
        rw [AppendEpoch.continued, continued.1, filter_some_pos]
        · simp
        · exact decide_eq_true continued.2
      have begun : ledger.opened ≤ offset := atEnd ▸ credited.begun
      split at planned
      case isTrue reached =>
        cases planned
        refine @Accounted.append _ _ _ _ accounted atEnd ⟨0, none⟩ continued.1 reached
          credited.charged
          ?_ ?_
        · rw [unopened]
          exact begun
        · rw [unopened]
          exact credited.covers
      case isFalse beyond =>
        rcases credited.continued fits planned with ⟨plannedEnd, ending, reached, covers⟩
        have covered : AppendEpoch.extend ledger.epoch.appendMetadataCoveredEnd
            plan.appendMetadataCoveredEnd = some (max found plannedEnd) := by
          rw [continued.1, ending]
          rfl
        apply accounted.append atEnd covered (reached.trans (le_max_right _ _))
          (credited.charged.trans (le_add_right _ _))
        · rw [unopened]
          exact begun
        · rw [unopened]
          exact covers

/-- A careful request keeps what is appended within what is charged. -/
theorem Accounted.step {request : AppendRequest} (careful : ledger.Careful request) :
    (ledger.step maximumFileBytes request).Accounted := by
  cases request with
  | write offset length =>
    rw [AppendLedger.step]
    cases admitted : ledger.admitWrite maximumFileBytes offset length with
    | error error => exact accounted
    | ok after =>
      rw [admitWrite, bind_ok] at admitted
      rcases admitted with ⟨_, _, admitted⟩
      split at admitted
      · cases admitted
        exact accounted
      · simp only [bind_ok, checkedAdd_ok, pure_ok] at admitted
        rcases admitted with ⟨finish, ⟨fits, _⟩, _, _, plan, planned, rfl⟩
        by_cases atEnd : offset = ledger.epoch.resultSize
        · exact accounted.appendPlanned atEnd (by omega) fits planned
        · exact accounted.overwrite atEnd planned
  | setLength length =>
    rw [AppendLedger.step]
    split
    · exact accounted
    · exact accounted.truncate careful

theorem Accounted.run {requests : List AppendRequest}
    (careful : CarefulRun maximumFileBytes ledger requests) :
    (ledger.run maximumFileBytes requests).Accounted := by
  induction requests generalizing ledger with
  | nil => exact accounted
  | cons request rest ih => exact ih (accounted.step careful.1) careful.2

end

/-- While no truncation goes behind the opening of the present credit, every complete window of
appended bytes has been paid for. -/
theorem append_credit_prepaid_of_carefulRun (maximumFileBytes baseSize : ℕ)
    (requests : List AppendRequest)
    (careful : CarefulRun maximumFileBytes (start baseSize) requests) :
    (run maximumFileBytes (start baseSize) requests).Prepaid :=
  ((accounted_start baseSize).run careful).prepaid

/-- A file is filled up from its beginning and truncated to a part of it on the way. -/
theorem append_credit_prepaid_on_rewritten_tail :
    CarefulRun (2 ^ 64 - 1) (start 0)
      [.write 0 (9 * 1024 * 1024), .setLength 5, .write 5 (32 * 1024 * 1024)] ∧
    (run (2 ^ 64 - 1) (start 0)
      [.write 0 (9 * 1024 * 1024), .setLength 5, .write 5 (32 * 1024 * 1024)]).Prepaid := by
  have careful : CarefulRun (2 ^ 64 - 1) (start 0)
      [.write 0 (9 * 1024 * 1024), .setLength 5, .write 5 (32 * 1024 * 1024)] :=
    ⟨trivial, fun _ => zero_le 5, trivial, trivial⟩
  exact ⟨careful, append_credit_prepaid_of_carefulRun _ _ _ careful⟩

theorem step_write {plan : WriteCapacityPlan} (positive : length ≠ 0) (small : length < 2 ^ 32)
    (limited : maximumFileBytes < 2 ^ 64) (fits : offset + length ≤ maximumFileBytes)
    (planned : ledger.epoch.planWriteCapacity offset length = .ok plan) :
    ledger.step maximumFileBytes (.write offset length) = ledger.write offset length plan := by
  have admitted : ledger.admitWrite maximumFileBytes offset length =
      .ok (ledger.write offset length plan) := by
    rw [admitWrite, require, if_neg (by omega), ok_bind, if_neg positive,
      checkedAdd_of_lt (by omega), ok_bind, require, if_neg (by omega), ok_bind, planned, ok_bind]
    rfl
  rw [step, admitted]
  rfl

theorem appended_truncate_zero : (ledger.truncate 0).appended = ∅ := by
  simp [truncate]

/-- One byte behind a hole of 64 MiB buys a credit that is spent in front of it: after a truncation
to nothing, 64 MiB are appended for nothing. -/
theorem append_credit_survives_truncation :
    ¬ (run (2 ^ 64 - 1) (start 0) [.setLength 67108864, .write 67108864 1, .setLength 0,
      .write 0 67108864]).Prepaid := by
  have charged : AppendEpoch.planWriteCapacity ⟨0, 67108864, none⟩ 67108864 1 =
      .ok ⟨8388608, some 83886080⟩ := by decide +kernel
  have covered : AppendEpoch.planWriteCapacity ⟨0, 0, some 83886080⟩ 0 67108864 =
    .ok ⟨0, none⟩ := by
    decide +kernel
  have behind := @step_write ((start 0).truncate 67108864) (2 ^ 64 - 1) 67108864 1
    ⟨8388608, some 83886080⟩ (by decide) (by decide) (by decide) (by decide) charged
  have front := @step_write ((((start 0).truncate 67108864).write 67108864 1
    ⟨8388608, some 83886080⟩).truncate 0) (2 ^ 64 - 1) 0 67108864 ⟨0, none⟩ (by decide) (by decide)
    (by decide) (by decide) covered
  rw [run, foldl_cons, step, if_neg (by decide), foldl_cons, behind, foldl_cons,
    step, if_neg (by decide), foldl_cons, front, foldl_nil, Prepaid,
    appended_write (show 0 = AppendEpoch.resultSize _ from rfl),
    appended_truncate_zero, empty_union, card_Ico]
  decide +kernel

end AppendLedger

end Fastdup.Posix
