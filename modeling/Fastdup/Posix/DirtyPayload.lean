import Fastdup.Posix.Namespace.Refusals
import Fastdup.Posix.SparseData.Atomic

/-!
# The dirty payload counter

The Namespace counts the bytes that the next checkpoint could write: the resident payload of the
files that have a name. Every change of a file that has a name moves the counter by the difference,
and a file that loses its last name gives up what it had. A file that is open can get a name again,
and then its payload is not counted. A change that fails after a part of it took place does not
reach the counter either: verified extents clear the resident bytes of one run after another and
may run out of memory in between.

How many bytes of a file are resident after a change is part of the operation; `ofChange` takes it
from the change of the dirty data, and a change that is atomic fails carefully. Completing a commit
leaves the payload that has come after the cut as it is.
-/

namespace Fastdup.Posix

open Library Checked Nat SortedMap

/-- What the accounting of dirty payload reads of an inode. -/
structure PayloadInode where
  kind : FileKind
  linkCount : ℕ
  resident : ℕ
  deriving DecidableEq

/-- The inodes and the running total of payload that a checkpoint can retire. -/
structure PayloadState where
  inodes : SortedMap ℕ PayloadInode
  checkpointable : ℕ
  deriving DecidableEq

/-- The operations that change resident payload or link counts. -/
inductive PayloadOperation where
  | create (id : ℕ) (kind : FileKind)
  /-- A write, a truncation, a preallocation, a clone or verified extents taking payload over. -/
  | mutate (id resident : ℕ)
  /-- The same changes when they return an error; the payload may have changed until then. -/
  | abandon (id resident : ℕ)
  | link (id : ℕ)
  /-- A name goes, also by a rename over it. The inode stays if a lookup or handle refers to it. -/
  | unlink (id : ℕ) (referenced : Bool)
  | dropOrphan (id : ℕ)
  | beginCommit
  deriving DecidableEq

/-- Moves the total by the change of one inode. -/
def DirtyPayloadTracker.replace (checkpointable before after : ℕ) : Except Failure ℕ :=
  if after > before then do
    assertThat (checkpointable + (after - before) < 2 ^ 64)
    return checkpointable + (after - before)
  else if after < before then do
    assertThat (before - after ≤ checkpointable)
    return checkpointable - (before - after)
  else .ok checkpointable

open DirtyPayloadTracker

namespace PayloadInode

/-- A regular file with a name. -/
def Counts (inode : PayloadInode) : Prop := inode.kind = .regular ∧ 0 < inode.linkCount

instance (inode : PayloadInode) : Decidable inode.Counts := inferInstanceAs (Decidable (_ ∧ _))

/-- What the inode contributes to the total. -/
def weight (inode : PayloadInode) : ℕ := if inode.Counts then inode.resident else 0

/-- A cut takes the payload of a file with it. -/
def frozen (inode : PayloadInode) : PayloadInode :=
  if inode.Counts then { inode with resident := 0 } else inode

end PayloadInode

namespace PayloadState

variable (state : PayloadState)

def weights (entries : List (ℕ × PayloadInode)) : ℕ :=
  (entries.map fun entry => entry.2.weight).sum

/-- The resident bytes of the regular files that have a name. -/
def total : ℕ := weights state.inodes.pairs

def freeze (checkpointable : ℕ) (entry : ℕ × PayloadInode) : Except Failure ℕ :=
  if entry.2.Counts then replace checkpointable entry.2.resident 0 else .ok checkpointable

/-- The accounting of each operation. -/
def perform : PayloadOperation → Except Failure PayloadState
  | .create id kind => do
      refuse ((state.inodes.get? id).isSome) .exists
      let links := if kind = .directory then 2 else 1
      return { state with inodes := state.inodes.insert id ⟨kind, links, 0⟩ }
  | .mutate id resident => do
      let inode ← found .noEntry (state.inodes.get? id)
      refuse (inode.kind ≠ .regular) .invalidArgument
      let checkpointable ← if inode.linkCount > 0 then
          replace state.checkpointable inode.resident resident
        else .ok state.checkpointable
      return { inodes := state.inodes.insert id { inode with resident }, checkpointable }
  | .abandon id resident => do
      let inode ← found .noEntry (state.inodes.get? id)
      refuse (inode.kind ≠ .regular) .invalidArgument
      return { state with inodes := state.inodes.insert id { inode with resident } }
  | .link id => do
      let inode ← found .noEntry (state.inodes.get? id)
      refuse (inode.kind = .directory) .permissionDenied
      refuse (inode.linkCount + 1 ≥ 2 ^ 32) .noSpace
      return { state with
        inodes := state.inodes.insert id { inode with linkCount := inode.linkCount + 1 } }
  | .unlink id referenced => do
      let inode ← found .noEntry (state.inodes.get? id)
      refuse (inode.linkCount = 0) .noEntry
      refuse (inode.kind = .directory) .isDirectory
      let checkpointable ← if inode.linkCount = 1 ∧ inode.kind = .regular then
          replace state.checkpointable inode.resident 0
        else .ok state.checkpointable
      let inodes := if inode.linkCount = 1 ∧ ¬ referenced then state.inodes.remove id
        else state.inodes.insert id { inode with linkCount := inode.linkCount - 1 }
      return { inodes, checkpointable }
  | .dropOrphan id => do
      let inode ← found .noEntry (state.inodes.get? id)
      refuse (inode.linkCount ≠ 0) .exists
      return { state with inodes := state.inodes.remove id }
  | .beginCommit => do
      let checkpointable ← state.inodes.pairs.foldlM freeze state.checkpointable
      return { inodes := state.inodes.mapValues fun _ inode => inode.frozen, checkpointable }

def serve (operation : PayloadOperation) : Option PayloadState :=
  match state.perform operation with
  | .ok after => some after
  | .error (.refused _) => some state
  | .error .panicked => none

def run (operations : List PayloadOperation) : Option PayloadState :=
  operations.foldlM serve state

/-- A file that gets its first name back has nothing to count, a change of a file with a name fails
before it touches the payload, and what is resident fits into the memory that it is in. -/
def Careful : PayloadOperation → Prop
  | .link id => ∀ inode ∈ state.inodes.get? id, inode.linkCount = 0 → inode.resident = 0
  | .mutate id resident => ∀ inode ∈ state.inodes.get? id,
      { state with inodes := state.inodes.insert id { inode with resident } }.total < 2 ^ 64
  | .abandon id resident => ∀ inode ∈ state.inodes.get? id, inode.Counts →
      resident = inode.resident
  | _ => True

instance (operation : PayloadOperation) : Decidable (state.Careful operation) := by
  unfold Careful
  split <;> infer_instance

section Changes

variable {state} {File : Type} [CommittedFile File] {id : ℕ} {change : SparseData.Change File}
  {data : SparseData File} {memory : Memory}

/-- What a change of the dirty data of a file is for the counter. -/
def ofChange (id : ℕ) (change : SparseData.Change File) (data : SparseData File)
    (memory : Memory) : PayloadOperation :=
  match change.run (data, memory) with
  | (.ok _, left) => .mutate id left.1.residentBytes
  | (.error _, left) => .abandon id left.1.residentBytes

/-- A change that leaves the data as it was when it fails leaves the counter right. -/
theorem careful_of_atomic {error : PosixError} {left : SparseData File × Memory}
    (held : ∀ inode ∈ state.inodes.get? id, inode.resident = data.residentBytes)
    (atomic : SparseData.Atomic change.run data)
    (failed : change.run (data, memory) = (.error (.refused error), left)) :
    state.Careful (ofChange id change data memory) := by
  rw [ofChange, failed]
  intro inode present _
  rw [atomic memory error left failed, held inode present]

end Changes

/-- Every operation of the run is one that keeps the total right. -/
def CarefulRun (state : PayloadState) : List PayloadOperation → Prop
  | [] => True
  | operation :: rest => state.Careful operation ∧
      ∀ after ∈ state.serve operation, CarefulRun after rest

instance decidableCarefulRun (state : PayloadState) (operations : List PayloadOperation) :
    Decidable (state.CarefulRun operations) :=
  match operations with
  | [] => isTrue trivial
  | operation :: rest =>
    haveI := fun after => decidableCarefulRun after rest
    inferInstanceAs (Decidable (state.Careful operation ∧
      ∀ after ∈ state.serve operation, CarefulRun after rest))

section Counter

variable {state} {after : PayloadState}

theorem replace_of_counted {rest before resident : ℕ} (fits : rest + resident < 2 ^ 64) :
    replace (rest + before) before resident = .ok (rest + resident) := by
  unfold replace
  split
  · have bounded : rest + before + (resident - before) < 2 ^ 64 := by omega
    rw [assertThat, require, if_neg (not_not.mpr bounded), ok_bind]
    exact congrArg Except.ok (by omega)
  · split
    · have enough : before - resident ≤ rest + before := by omega
      rw [assertThat, require, if_neg (not_not.mpr enough), ok_bind]
      exact congrArg Except.ok (by omega)
    · exact congrArg Except.ok (by omega)

variable {inode : PayloadInode}

theorem exists_rest {id : ℕ} (found : state.inodes.get? id = some inode) :
    ∃ rest, state.total = rest + inode.weight ∧
      (∀ changed, weights (state.inodes.insert id changed).pairs = rest + changed.weight) ∧
      weights (state.inodes.remove id).pairs = rest := by
  have removed : weights (state.inodes.remove id).pairs + inode.weight = state.total :=
    sum_remove _ found
  refine ⟨_, removed.symm, fun changed => ?_, rfl⟩
  have inserted := @sum_insert _ _ _ _ _ _ _ _ state.inodes id changed
    fun entry => entry.2.weight
  rw [found, Option.elim_some] at inserted
  simp only [total, weights] at inserted removed ⊢
  omega

theorem weight_of_counts (counts : inode.Counts) : inode.weight = inode.resident :=
  if_pos counts

theorem weight_of_not_counts (uncounted : ¬ inode.Counts) : inode.weight = 0 :=
  if_neg uncounted

theorem weight_frozen (inode : PayloadInode) : inode.frozen.weight = 0 := by
  unfold PayloadInode.frozen
  split
  · rename_i counts
    exact weight_of_counts counts
  · rename_i uncounted
    exact weight_of_not_counts uncounted

theorem foldlM_freeze {entries : List (ℕ × PayloadInode)} {rest : ℕ}
    (fits : rest + weights entries < 2 ^ 64) :
    entries.foldlM freeze (rest + weights entries) = .ok rest := by
  induction entries with
  | nil => rfl
  | cons entry entries ih =>
    have split_ : weights (entry :: entries) = weights entries + entry.2.weight := by
      rw [weights, List.map_cons, List.sum_cons, add_comm]
      rfl
    rw [split_] at fits ⊢
    have step : freeze (rest + (weights entries + entry.2.weight)) entry =
        .ok (rest + weights entries) := by
      unfold freeze
      split
      · rename_i counts
        rw [weight_of_counts counts, ← add_assoc]
        exact replace_of_counted (by omega)
      · rename_i uncounted
        rw [weight_of_not_counts uncounted, add_zero]
    rw [List.foldlM_cons, step]
    exact ih (by omega)

/-- The counter is right and a number of the machine. -/
structure Exact (state : PayloadState) : Prop where
  counted : state.checkpointable = state.total
  bounded : state.total < 2 ^ 64

theorem Exact.of_total (exact_ : state.Exact) {inodes : SortedMap ℕ PayloadInode}
    (same : weights inodes.pairs = state.total) : Exact { state with inodes } :=
  ⟨exact_.counted.trans same.symm, lt_of_eq_of_lt same exact_.bounded⟩

section

variable {operation : PayloadOperation} (exact_ : state.Exact) (careful : state.Careful operation)

include exact_ careful

theorem Exact.perform : Runs True (state.perform operation) Exact := by
  have counted := exact_.counted
  have bounded := exact_.bounded
  cases operation with
  | create id kind =>
    refine .refuse fun checked => ?_
    have absent : state.inodes.get? id = none := by simpa using checked
    apply exact_.of_total
    have inserted := @sum_insert _ _ _ _ _ _ _ _ state.inodes id
      ⟨kind, if kind = .directory then 2 else 1, 0⟩ fun entry => entry.2.weight
    rw [absent, Option.elim_none] at inserted
    refine inserted.trans ?_
    simp [PayloadInode.weight, total, weights]
  | mutate id resident =>
    refine .found fun inode present => ?_
    refine .demand fun regular => ?_
    rcases exists_rest present with ⟨rest, whole, changed, _⟩
    have fits : weights _ < 2 ^ 64 := careful inode present
    rw [changed] at fits
    by_cases named : inode.linkCount > 0
    · have counts : inode.Counts := ⟨regular, named⟩
      have countsAfter : { inode with resident }.Counts := counts
      rw [weight_of_counts countsAfter] at fits
      rw [if_pos named, counted, whole, weight_of_counts counts, replace_of_counted fits, ok_bind]
      refine ⟨?_, ?_⟩
      · rw [total, changed, weight_of_counts countsAfter]
      · rw [total, changed, weight_of_counts countsAfter]
        exact fits
    · have uncounted : ¬ inode.Counts := fun counts => named counts.2
      have uncountedAfter : ¬ { inode with resident }.Counts := uncounted
      rw [if_neg named, ok_bind]
      apply exact_.of_total
      rw [changed, whole, weight_of_not_counts uncounted, weight_of_not_counts uncountedAfter]
  | abandon id resident =>
    refine .found fun inode present => ?_
    refine .demand fun regular => ?_
    rcases exists_rest present with ⟨rest, whole, changed, _⟩
    apply exact_.of_total
    rw [changed, whole]
    by_cases counts : inode.Counts
    · rw [careful inode present counts]
    · have uncountedAfter : ¬ { inode with resident }.Counts := counts
      rw [weight_of_not_counts counts, weight_of_not_counts uncountedAfter]
  | link id =>
    refine .found fun inode present => ?_
    refine .refuse fun _ => .refuse fun _ => ?_
    rcases exists_rest present with ⟨rest, whole, changed, _⟩
    apply exact_.of_total
    rw [changed, whole]
    have orphan := careful inode present
    by_cases named : inode.linkCount = 0
    · simp [PayloadInode.weight, PayloadInode.Counts, named, orphan named]
    · simp [PayloadInode.weight, PayloadInode.Counts, pos_of_ne_zero named]
  | unlink id referenced =>
    refine .found fun inode present => ?_
    refine .refuse fun linked => .refuse fun _ => ?_
    rcases exists_rest present with ⟨rest, whole, changed, removed⟩
    let unlinked : PayloadInode := { inode with linkCount := inode.linkCount - 1 }
    -- Without its last name the inode does not count, whether it stays or not.
    have left_ : weights (if inode.linkCount = 1 ∧ ¬ referenced then state.inodes.remove id
        else state.inodes.insert id unlinked).pairs = rest + unlinked.weight := by
      split
      · have uncounted : ¬ unlinked.Counts := fun counts => by
          have named : 0 < inode.linkCount - 1 := counts.2
          omega
        rw [removed, weight_of_not_counts uncounted, add_zero]
      · exact changed unlinked
    by_cases last : inode.linkCount = 1 ∧ inode.kind = .regular
    · have counts : inode.Counts := ⟨last.2, by omega⟩
      have uncounted : ¬ unlinked.Counts := fun counts => by
        have named : 0 < inode.linkCount - 1 := counts.2
        omega
      rw [weight_of_not_counts uncounted] at left_
      rw [weight_of_counts counts] at whole
      rw [if_pos last, counted, whole, replace_of_counted (by omega), ok_bind]
      exact ⟨left_.symm, lt_of_eq_of_lt left_ (by omega)⟩
    · have same : unlinked.weight = inode.weight := by
        have counts_iff : unlinked.Counts ↔ inode.Counts := by
          refine and_congr_right fun regular => ?_
          have notLast : inode.linkCount ≠ 1 := fun one => last ⟨one, regular⟩
          change 0 < inode.linkCount - 1 ↔ 0 < inode.linkCount
          omega
        simp only [PayloadInode.weight, counts_iff]
        rfl
      rw [if_neg last, ok_bind]
      exact exact_.of_total (left_.trans (by rw [same, whole]))
  | dropOrphan id =>
    refine .found fun inode present => ?_
    refine .demand fun orphan => ?_
    rcases exists_rest present with ⟨rest, whole, _, removed⟩
    have uncounted : ¬ inode.Counts := fun counts => by
      have named := counts.2
      omega
    apply exact_.of_total
    rw [removed, whole, weight_of_not_counts uncounted, add_zero]
  | beginCommit =>
    have frozen := @foldlM_freeze state.inodes.pairs 0 (by rwa [zero_add])
    rw [zero_add] at frozen
    rw [PayloadState.perform, counted, total, frozen, ok_bind]
    have nothing : weights (state.inodes.mapValues fun _ inode => inode.frozen).pairs = 0 := by
      simp [weights, mapValues, weight_frozen, Function.comp_def]
    exact ⟨nothing.symm, lt_of_eq_of_lt nothing (by decide)⟩

theorem Exact.serve : ∃ after, state.serve operation = some after ∧ after.Exact := by
  have runs := exact_.perform careful
  unfold PayloadState.serve
  cases performed : state.perform operation with
  | ok after => exact ⟨after, rfl, runs.of_ok performed⟩
  | error failure =>
    cases failure with
    | refused error => exact ⟨state, rfl, exact_⟩
    | panicked => exact absurd performed (runs.refusing trivial)

end

/-- A namespace as it is mounted: nothing is dirty. -/
def Clean (state : PayloadState) : Prop :=
  state.checkpointable = 0 ∧ ∀ entry ∈ state.inodes.pairs, entry.2.resident = 0

theorem Clean.exact (clean : state.Clean) : state.Exact := by
  have nothing : state.total = 0 := by
    refine List.sum_eq_zero fun weight mem => ?_
    rcases List.mem_map.mp mem with ⟨entry, listed, rfl⟩
    rw [PayloadInode.weight, clean.2 entry listed, ite_self]
  exact ⟨clean.1.trans nothing.symm, lt_of_eq_of_lt nothing (by decide)⟩

/-- A careful run keeps the total exact. -/
theorem Exact.run {operations : List PayloadOperation} (exact_ : state.Exact)
    (careful : state.CarefulRun operations) :
    ∃ after, state.run operations = some after ∧ after.Exact := by
  induction operations generalizing state with
  | nil => exact ⟨state, rfl, exact_⟩
  | cons operation rest ih =>
    rcases exact_.serve careful.1 with ⟨next, served, nextExact⟩
    rcases ih nextExact (careful.2 next served) with ⟨after, ran, holds⟩
    refine ⟨after, ?_, holds⟩
    rw [PayloadState.run, List.foldlM_cons, served]
    exact ran

/-- In a careful run the counter is the resident payload of the files that have a name, and nothing
panics. -/
theorem counter_exact_of_carefulRun {operations : List PayloadOperation} (clean : state.Clean)
    (careful : state.CarefulRun operations) :
    ∃ after, state.run operations = some after ∧ after.checkpointable = after.total := by
  rcases clean.exact.run careful with ⟨after, ran, exact_⟩
  exact ⟨after, ran, exact_.counted⟩

def noInodes : PayloadState where
  inodes := .empty
  checkpointable := 0

/-- Two files are written; one gets a second name, is cut by a commit and written again, and a
change of the other one fails after it lost its name. -/
theorem counter_exact_of_write : ∃ after,
    noInodes.run [.create 2 .regular, .mutate 2 4, .create 3 .regular, .mutate 3 9, .link 2,
      .unlink 2 true, .beginCommit, .mutate 2 6, .unlink 3 true, .abandon 3 5, .abandon 2 6] =
        some after ∧ after.checkpointable = after.total :=
  counter_exact_of_carefulRun ⟨rfl, nofun⟩ (by decide)

/-- An open file gets a name again. Its payload is not counted, and when the name goes once more the
counter falls below zero. -/
theorem relinked_payload_not_counted :
    (∃ after, noInodes.run [.create 2 .regular, .mutate 2 4, .unlink 2 true, .link 2] = some after ∧
      after.checkpointable ≠ after.total) ∧
    noInodes.run [.create 2 .regular, .mutate 2 4, .unlink 2 true, .link 2, .unlink 2 true] =
      none := by
  refine ⟨⟨_, rfl, ?_⟩, ?_⟩
  · decide
  · decide

/-- Verified extents clear a part of the payload and fail. The counter stays too high. -/
example : ∃ after, noInodes.run [.create 2 .regular, .mutate 2 8, .abandon 2 4] = some after ∧
    after.checkpointable ≠ after.total :=
  ⟨_, rfl, by decide⟩

end Counter

end PayloadState

end Fastdup.Posix
