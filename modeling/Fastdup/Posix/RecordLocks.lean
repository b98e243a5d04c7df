import Mathlib.Data.List.Pairwise
import Mathlib.Data.List.Sort
import Mathlib.Data.Prod.Lex
import Fastdup.Posix.Namespace.Requests

/-!
# Record locks

The locks of a file are kept as a list of ranges. A request cuts the ranges of its owner, adds its
own, and brings the list into one form: neighbours with the same holder are joined. What the ranges
stand for is which kind of lock each owner holds on each byte, and a request changes exactly the
bytes that it names.
-/

namespace Fastdup.Posix

open Library Checked SortedMap List Option

def MAXIMUM_RECORD_LOCKS : ℕ := 65536

/-- What a lock request asks for. -/
inductive LockKind where
  | read
  | write
  | unlock
  deriving DecidableEq, Repr

/-- A lock request; the last byte is inclusive and a 64-bit offset. -/
structure FileLock where
  start : ℕ
  finish : ℕ
  kind : LockKind
  pid : ℕ
  bounded : finish < 2 ^ 64

/-- A lock held by an owner. -/
structure RecordLock where
  owner : ℕ
  start : ℕ
  finish : ℕ
  kind : LockKind
  pid : ℕ
  deriving DecidableEq, Repr

/-- The order of the enumeration in the source. -/
def lockKindOrder : LockKind → ℕ
  | .read => 0
  | .write => 1
  | .unlock => 2

namespace RecordLock

def fromRequest (owner : ℕ) (lock : FileLock) : RecordLock where
  owner := owner
  start := lock.start
  finish := lock.finish
  kind := lock.kind
  pid := lock.pid

/-- Both ends are inclusive. -/
def Overlaps (left right : RecordLock) : Prop :=
  left.start ≤ right.finish ∧ right.start ≤ left.finish

instance : DecidableRel Overlaps := fun _ _ => inferInstanceAs (Decidable (_ ∧ _))

/-- Locks of two owners conflict unless both are for reading. -/
def Conflicts (candidate requested : RecordLock) : Prop :=
  candidate.owner ≠ requested.owner ∧ candidate.Overlaps requested ∧
    (candidate.kind = .write ∨ requested.kind = .write)

instance : DecidableRel Conflicts := fun _ _ => inferInstanceAs (Decidable (_ ∧ _))

/-- The byte lies in the locked range. -/
def Has (lock : RecordLock) (offset : ℕ) : Prop := lock.start ≤ offset ∧ offset ≤ lock.finish

instance (lock : RecordLock) : DecidablePred lock.Has := fun _ =>
  inferInstanceAs (Decidable (_ ∧ _))

/-- The order of the holders. -/
def holderKey (lock : RecordLock) : ℕ ×ₗ ℕ ×ₗ ℕ ×ₗ ℕ ×ₗ ℕ :=
  toLex (lock.owner, toLex (lockKindOrder lock.kind, toLex (lock.pid,
    toLex (lock.start, lock.finish))))

def rangeKey (lock : RecordLock) : ℕ ×ₗ ℕ ×ₗ ℕ :=
  toLex (lock.start, toLex (lock.finish, lock.owner))

/-- Neighbours that may be merged into one lock. -/
def SameHolder (left right : RecordLock) : Prop :=
  left.owner = right.owner ∧ left.kind = right.kind ∧ left.pid = right.pid

instance : DecidableRel SameHolder := fun _ _ => inferInstanceAs (Decidable (_ ∧ _))

/-- What a request of the same owner leaves of a lock. -/
def remainder (requested current : RecordLock) : List RecordLock :=
  if current.owner ≠ requested.owner ∨ ¬ current.Overlaps requested then [current]
  else
    (if current.start < requested.start then [{ current with finish := requested.start - 1 }]
      else []) ++
    if current.finish > requested.finish then [{ current with start := requested.finish + 1 }]
      else []

/-- Joins a lock with the ones behind it, `previous` being the last that has been written. The end
of the address space has no successor. -/
def mergeFrom (previous : RecordLock) : List RecordLock → List RecordLock
  | [] => [previous]
  | current :: rest =>
    if previous.SameHolder current ∧ current.start ≤ min (previous.finish + 1) (2 ^ 64 - 1) then
      mergeFrom { previous with finish := max previous.finish current.finish } rest
    else previous :: mergeFrom current rest

/-- Merges locks of one holder that overlap or touch. -/
def mergeNeighbours : List RecordLock → List RecordLock
  | [] => []
  | first :: rest => mergeFrom first rest

end RecordLock

open RecordLock

def firstLockConflict (held : List RecordLock) (requested : RecordLock) : Option RecordLock :=
  held.find? fun candidate => candidate.Conflicts requested

def sortByHolder (locks : List RecordLock) : List RecordLock :=
  locks.insertionSort fun left right => left.holderKey ≤ right.holderKey

def sortByRange (locks : List RecordLock) : List RecordLock :=
  locks.insertionSort fun left right => left.rangeKey ≤ right.rangeKey

/-- Merged within each holder, then listed by range. -/
def canonicalizeRecordLocks (locks : List RecordLock) : List RecordLock :=
  sortByRange (mergeNeighbours (sortByHolder locks))

/-- The new lock takes its range from what the owner held. -/
def replaceOwnerLockRange (held : List RecordLock) (requested : RecordLock) : List RecordLock :=
  canonicalizeRecordLocks
    (held.flatMap requested.remainder ++ if requested.kind = .unlock then [] else [requested])

/-- The held locks by inode, with their number. -/
structure LockTable where
  byInode : SortedMap ℕ (List RecordLock)
  recordCount : ℕ

namespace LockTable

def empty : LockTable where
  byInode := .empty
  recordCount := 0

variable (catalog : Catalog) (allocated : Bool) (table : LockTable)

def held (id : ℕ) : List RecordLock := (table.byInode.get? id).getD []

/-- Installs the locks of an inode, with the total adjusted. -/
def withLocks (id : ℕ) (updated : List RecordLock) : LockTable where
  byInode := if updated = [] then table.byInode.remove id else table.byInode.insert id updated
  recordCount := table.recordCount - (table.held id).length + updated.length

/-- Locks need an open file. -/
def validateLockHandle (id handle : ℕ) : Except Failure OpenHandle := do
  let (file, inode) ← catalog.resolveOpenFile id handle
  refuse (inode.kind ≠ .regular) .isDirectory
  return file

/-- The checks of a request before the table is looked at. -/
def admitRequest (id handle : ℕ) (lock : FileLock) : Except Failure Unit := do
  let file ← validateLockHandle catalog id handle
  refuse (lock.start > lock.finish) .invalidArgument
  refuse (lock.kind = .read ∧ file.options.access = .writeOnly ∨
    lock.kind = .write ∧ file.options.access = .readOnly) .badHandle

/-- Sets or clears a lock; a conflict refuses the request. -/
def setLock (id handle owner : ℕ) (lock : FileLock) : Except Failure LockTable := do
  admitRequest catalog id handle lock
  let requested := RecordLock.fromRequest owner lock
  let held := table.held id
  refuse (lock.kind ≠ .unlock ∧ (firstLockConflict held requested).isSome) .again
  refuse (allocated = false) .outOfMemory
  let updated := replaceOwnerLockRange held requested
  if updated = held then return table
  else do
    refuse (table.recordCount < held.length) .noLocks
    refuse (table.recordCount - held.length + updated.length > MAXIMUM_RECORD_LOCKS) .noLocks
    return table.withLocks id updated

/-- Clears all locks of an owner on an inode. -/
def unlockOwner (id handle owner : ℕ) : Except Failure LockTable := do
  let _ ← validateLockHandle catalog id handle
  let held := table.held id
  let kept := held.filter fun lock => lock.owner ≠ owner
  if held.length - kept.length = 0 then return table
  else do
    assertThat (held.length - kept.length ≤ table.recordCount)
    return {
      byInode := if kept = [] then table.byInode.remove id else table.byInode.insert id kept
      recordCount := table.recordCount - (held.length - kept.length) }

/-- The kind of lock that an owner holds on a byte, and for which process. -/
def view (id owner offset : ℕ) : Option (LockKind × ℕ) :=
  ((table.held id).find? fun lock => lock.owner = owner ∧ lock.Has offset).map fun lock =>
    (lock.kind, lock.pid)

end LockTable

section Lists

variable {locks held rest : List RecordLock} {previous current requested : RecordLock}
  {owner offset : ℕ} {value : LockKind × ℕ}

/-- The owner holds this byte with this kind and process. -/
def Holds (locks : List RecordLock) (owner offset : ℕ) (value : LockKind × ℕ) : Prop :=
  ∃ lock ∈ locks, lock.owner = owner ∧ lock.Has offset ∧ (lock.kind, lock.pid) = value

/-- Two ranges of one owner have no byte in common. -/
def Apart (left right : RecordLock) : Prop :=
  left.owner = right.owner → ∀ offset, ¬ (left.Has offset ∧ right.Has offset)

instance : Std.Symm Apart where
  symm _ _ apart same offset both := apart same.symm offset both.symm

/-- A range that is not empty, of a lock that is held. -/
structure RecordLock.Valid (lock : RecordLock) : Prop where
  ordered : lock.start ≤ lock.finish
  bounded : lock.finish < 2 ^ 64
  kind : lock.kind ≠ .unlock

theorem Holds.of_perm {others : List RecordLock} (perm : locks.Perm others) :
    Holds locks owner offset value ↔ Holds others owner offset value := by
  simp [Holds, perm.mem_iff]

theorem holds_cons : Holds (current :: locks) owner offset value ↔
    (current.owner = owner ∧ current.Has offset ∧ (current.kind, current.pid) = value) ∨
      Holds locks owner offset value := by
  simp [Holds]

theorem holds_append {others : List RecordLock} : Holds (locks ++ others) owner offset value ↔
    Holds locks owner offset value ∨ Holds others owner offset value := by
  simp [Holds, or_and_right, exists_or]

/-- Ranges of one holder come in the order of their starts. -/
def Ordered (left right : RecordLock) : Prop := left.SameHolder right → left.start ≤ right.start

theorem has_join (ordered : previous.start ≤ current.start)
    (near : current.start ≤ previous.finish + 1) :
    { previous with finish := max previous.finish current.finish : RecordLock }.Has offset ↔
      previous.Has offset ∨ current.Has offset := by
  simp only [Has, le_max_iff]
  omega

theorem holds_mergeFrom (ordered : (previous :: rest).Pairwise Ordered) :
    Holds (mergeFrom previous rest) owner offset value ↔
      Holds (previous :: rest) owner offset value := by
  induction rest generalizing previous with
  | nil => rfl
  | cons current rest ih =>
    rw [pairwise_cons] at ordered
    rw [mergeFrom]
    split
    · rename_i joins
      rcases joins with ⟨same, near⟩
      have first := ordered.1 current mem_cons_self same
      rw [ih ?_, holds_cons, holds_cons, holds_cons,
        has_join first (near.trans (Nat.min_le_left _ _))]
      · rcases same with ⟨sameOwner, sameKind, samePid⟩
        rw [← sameOwner, ← sameKind, ← samePid]
        tauto
      · refine pairwise_cons.mpr ⟨?_, (pairwise_cons.mp ordered.2).2⟩
        exact fun lock mem => ordered.1 lock (mem_cons_of_mem _ mem)
    · rw [holds_cons, ih ordered.2, ← holds_cons]

theorem valid_mergeFrom (valid : ∀ lock ∈ previous :: rest, lock.Valid) :
    ∀ lock ∈ mergeFrom previous rest, lock.Valid := by
  induction rest generalizing previous with
  | nil => exact valid
  | cons current rest ih =>
    rw [forall_mem_cons] at valid
    have tail := forall_mem_cons.mp valid.2
    rw [mergeFrom]
    split
    · refine ih (forall_mem_cons.mpr ⟨⟨?_, ?_, valid.1.kind⟩, tail.2⟩)
      · exact valid.1.ordered.trans (le_max_left _ _)
      · exact max_lt valid.1.bounded tail.1.bounded
    · exact forall_mem_cons.mpr ⟨valid.1, ih valid.2⟩

theorem apart_mergeFrom (ordered : (previous :: rest).Pairwise Ordered)
    (apart : (previous :: rest).Pairwise Apart) : (mergeFrom previous rest).Pairwise Apart := by
  induction rest generalizing previous with
  | nil => exact apart
  | cons current rest ih =>
    rw [pairwise_cons] at ordered apart
    have apartRest := pairwise_cons.mp apart.2
    rw [mergeFrom]
    split
    · rename_i joins
      rcases joins with ⟨same, near⟩
      have first := ordered.1 current mem_cons_self same
      refine ih (pairwise_cons.mpr ⟨?_, (pairwise_cons.mp ordered.2).2⟩)
        (pairwise_cons.mpr ⟨?_, apartRest.2⟩)
      · exact fun lock mem => ordered.1 lock (mem_cons_of_mem _ mem)
      · rintro lock mem sameOwner offset ⟨joined, other⟩
        rcases (has_join first (near.trans (Nat.min_le_left _ _))).mp joined with old | new
        · exact apart.1 lock (mem_cons_of_mem _ mem) sameOwner offset ⟨old, other⟩
        · exact apartRest.1 lock mem (same.1.symm.trans sameOwner) offset ⟨new, other⟩
    · refine pairwise_cons.mpr ⟨?_, ih ordered.2 apart.2⟩
      -- A byte of a joined range is one of the ranges that have been joined.
      rintro lock mem sameOwner offset ⟨here, there⟩
      rcases (holds_mergeFrom ordered.2).mp ⟨lock, mem, rfl, there, rfl⟩ with
        ⟨source, listed, owned, has, _⟩
      exact apart.1 source listed (sameOwner.trans owned.symm) offset ⟨here, has⟩

theorem ordered_of_holderKey_le {left right : RecordLock}
    (before : left.holderKey ≤ right.holderKey) : Ordered left right := by
  rintro ⟨owner, kind, pid⟩
  simp only [holderKey, owner, kind, pid, Prod.Lex.toLex_le_toLex, lt_irrefl, true_and,
    false_or] at before
  omega

instance : Std.Total fun left right : RecordLock => left.holderKey ≤ right.holderKey where
  total left right := le_total left.holderKey right.holderKey

instance : IsTrans RecordLock fun left right => left.holderKey ≤ right.holderKey where
  trans _ _ _ := le_trans

theorem perm_sortByHolder (locks : List RecordLock) : (sortByHolder locks).Perm locks :=
  perm_insertionSort _ _

theorem perm_sortByRange (locks : List RecordLock) : (sortByRange locks).Perm locks :=
  perm_insertionSort _ _

theorem ordered_sortByHolder (locks : List RecordLock) : (sortByHolder locks).Pairwise Ordered :=
  (pairwise_insertionSort _ locks).imp ordered_of_holderKey_le

theorem holds_canonicalizeRecordLocks :
    Holds (canonicalizeRecordLocks locks) owner offset value ↔ Holds locks owner offset value := by
  rw [canonicalizeRecordLocks, Holds.of_perm (perm_sortByRange _),
    ← Holds.of_perm (perm_sortByHolder locks)]
  have ordered := ordered_sortByHolder locks
  cases sorted : sortByHolder locks with
  | nil => rfl
  | cons first rest => exact holds_mergeFrom (sorted ▸ ordered)

theorem valid_canonicalizeRecordLocks (valid : ∀ lock ∈ locks, lock.Valid) :
    ∀ lock ∈ canonicalizeRecordLocks locks, lock.Valid := by
  intro lock mem
  rw [canonicalizeRecordLocks, (perm_sortByRange _).mem_iff] at mem
  have validSorted : ∀ lock ∈ sortByHolder locks, lock.Valid := fun lock mem =>
    valid lock ((perm_sortByHolder locks).mem_iff.mp mem)
  cases sorted : sortByHolder locks with
  | nil =>
    rw [sorted] at mem
    cases mem
  | cons first rest =>
    rw [sorted] at mem validSorted
    exact valid_mergeFrom validSorted lock mem

theorem apart_canonicalizeRecordLocks (apart : locks.Pairwise Apart) :
    (canonicalizeRecordLocks locks).Pairwise Apart := by
  have apartSorted := ((perm_sortByHolder locks).pairwise_iff symm).mpr apart
  have ordered := ordered_sortByHolder locks
  rw [canonicalizeRecordLocks, (perm_sortByRange _).pairwise_iff symm]
  cases sorted : sortByHolder locks with
  | nil => exact List.Pairwise.nil
  | cons first rest => exact apart_mergeFrom (sorted ▸ ordered) (sorted ▸ apartSorted)

/-- What is left of a lock has its holder, and the bytes that the request does not name. -/
theorem mem_remainder {lock : RecordLock} (mem : lock ∈ requested.remainder current) :
    lock.SameHolder current ∧ (current.Valid → lock.Valid) ∧ ∀ offset, lock.Has offset →
      current.Has offset ∧ ¬ (current.owner = requested.owner ∧ requested.Has offset) := by
  unfold remainder at mem
  split at mem
  · rename_i outside
    rw [mem_singleton.mp mem]
    refine ⟨⟨rfl, rfl, rfl⟩, fun valid => valid, fun offset has => ⟨has, ?_⟩⟩
    rintro ⟨same, requested⟩
    rcases outside with ne | disjoint
    · exact ne same
    · exact disjoint ⟨has.1.trans requested.2, requested.1.trans has.2⟩
  · rename_i inside
    rw [not_or, not_not, not_not] at inside
    rcases inside with ⟨_, overlap⟩
    rcases mem_append.mp mem with before | after
    · split at before
      · rw [mem_singleton.mp before]
        refine ⟨⟨rfl, rfl, rfl⟩, fun valid => ⟨?_, ?_, valid.kind⟩, ?_⟩
        · change current.start ≤ requested.start - 1
          omega
        · have bounded := valid.bounded
          change requested.start - 1 < 2 ^ 64
          rw [RecordLock.Overlaps] at overlap
          omega
        · simp only [Has, RecordLock.Overlaps] at overlap ⊢
          omega
      · cases before
    · split at after
      · rename_i ends
        rw [mem_singleton.mp after]
        refine ⟨⟨rfl, rfl, rfl⟩, fun valid => ⟨ends, valid.bounded, valid.kind⟩, ?_⟩
        simp only [Has, RecordLock.Overlaps] at overlap ⊢
        omega
      · cases after

theorem exists_mem_remainder (has : current.Has offset)
    (kept : ¬ (current.owner = requested.owner ∧ requested.Has offset)) :
    ∃ lock ∈ requested.remainder current, lock.Has offset := by
  unfold remainder
  split
  · exact ⟨current, mem_singleton_self _, has⟩
  · rename_i inside
    rw [not_or, not_not, not_not] at inside
    have outside : ¬ requested.Has offset := fun requested => kept ⟨inside.1, requested⟩
    simp only [Has] at has outside
    rcases Nat.lt_or_ge offset requested.start with before | notBefore
    · refine ⟨{ current with finish := requested.start - 1 }, mem_append_left _ ?_, ?_⟩
      · rw [if_pos (by omega)]
        exact mem_singleton_self _
      · simp only [Has]
        omega
    · refine ⟨{ current with start := requested.finish + 1 }, mem_append_right _ ?_, ?_⟩
      · rw [if_pos (by omega)]
        exact mem_singleton_self _
      · simp only [Has]
        omega

theorem apart_remainder (ordered : requested.start ≤ requested.finish) :
    (requested.remainder current).Pairwise Apart := by
  unfold remainder
  split
  · exact pairwise_singleton _ _
  · split <;> split <;> simp [Apart, Has]
    omega

theorem holds_remainder : Holds (held.flatMap requested.remainder) owner offset value ↔
      Holds held owner offset value ∧ ¬ (owner = requested.owner ∧ requested.Has offset) := by
  constructor
  · rintro ⟨lock, mem, rfl, has, rfl⟩
    rcases mem_flatMap.mp mem with ⟨current, listed, piece⟩
    rcases mem_remainder piece with ⟨⟨owner, kind, pid⟩, _, bytes⟩
    rcases bytes offset has with ⟨had, kept⟩
    rw [owner, kind, pid]
    exact ⟨⟨current, listed, rfl, had, rfl⟩, kept⟩
  · rintro ⟨⟨current, listed, rfl, has, rfl⟩, kept⟩
    rcases exists_mem_remainder has kept with ⟨lock, piece, has⟩
    rcases mem_remainder piece with ⟨⟨owner, kind, pid⟩, _, _⟩
    refine ⟨lock, mem_flatMap.mpr ⟨current, listed, piece⟩, owner, has, ?_⟩
    rw [kind, pid]

theorem apart_flatMap_remainder (ordered : requested.start ≤ requested.finish)
    (apart : held.Pairwise Apart) : (held.flatMap requested.remainder).Pairwise Apart := by
  refine pairwise_flatMap.mpr ⟨fun current _ => apart_remainder ordered, apart.imp ?_⟩
  intro left right distinct piece inLeft other inRight same offset both
  rcases mem_remainder inLeft with ⟨⟨leftOwner, _⟩, _, leftBytes⟩
  rcases mem_remainder inRight with ⟨⟨rightOwner, _⟩, _, rightBytes⟩
  exact distinct (leftOwner.symm.trans (same.trans rightOwner)) offset
    ⟨(leftBytes offset both.1).1, (rightBytes offset both.2).1⟩

/-- The locks of a file: none is empty, an owner's ranges are disjoint, and on no byte do two owners
hold locks of which one is for writing. -/
structure Proper (held : List RecordLock) : Prop where
  valid : ∀ lock ∈ held, lock.Valid
  apart : held.Pairwise Apart
  compatible : ∀ first second offset left right, first ≠ second → Holds held first offset left →
    Holds held second offset right → left.1 ≠ .write ∧ right.1 ≠ .write

/-- A request decides about the bytes of its owner that it names, and about no others. -/
theorem holds_replaceOwnerLockRange :
    Holds (replaceOwnerLockRange held requested) owner offset value ↔
      if owner = requested.owner ∧ requested.Has offset then
        requested.kind ≠ .unlock ∧ (requested.kind, requested.pid) = value
      else Holds held owner offset value := by
  rw [replaceOwnerLockRange, holds_canonicalizeRecordLocks, holds_append, holds_remainder]
  have added : Holds (if requested.kind = .unlock then [] else [requested]) owner offset value ↔
      requested.kind ≠ .unlock ∧ owner = requested.owner ∧ requested.Has offset ∧
        (requested.kind, requested.pid) = value := by
    by_cases unlocks : requested.kind = .unlock
    · simp [Holds, unlocks]
    · simp only [Holds, unlocks, if_false, mem_singleton, exists_eq_left, ne_eq,
        not_false_eq_true, true_and]
      exact and_congr eq_comm Iff.rfl
  by_cases here : owner = requested.owner ∧ requested.Has offset
  · rw [if_pos here]
    tauto
  · rw [if_neg here]
    tauto

theorem Proper.replaceOwnerLockRange (proper : Proper held)
    (ordered : requested.start ≤ requested.finish) (bounded : requested.finish < 2 ^ 64)
    (free : requested.kind ≠ .unlock → firstLockConflict held requested = none) :
    Proper (replaceOwnerLockRange held requested) := by
  constructor
  case valid =>
    apply valid_canonicalizeRecordLocks
    intro lock mem
    rcases mem_append.mp mem with piece | added
    · rcases mem_flatMap.mp piece with ⟨current, listed, piece⟩
      exact (mem_remainder piece).2.1 (proper.valid current listed)
    · split at added
      · cases added
      · rename_i locks
        exact mem_singleton.mp added ▸ ⟨ordered, bounded, locks⟩
  case apart =>
    apply apart_canonicalizeRecordLocks
    refine pairwise_append.mpr ⟨apart_flatMap_remainder ordered proper.apart, ?_, ?_⟩
    · split
      · exact List.Pairwise.nil
      · exact pairwise_singleton _ _
    · intro piece mem added isAdded same offset both
      rcases mem_flatMap.mp mem with ⟨current, listed, piece⟩
      rcases mem_remainder piece with ⟨⟨owner, _⟩, _, bytes⟩
      split at isAdded
      · cases isAdded
      · have isRequest := mem_singleton.mp isAdded
        subst isRequest
        exact (bytes offset both.1).2 ⟨owner.symm.trans same, both.2⟩
  case compatible =>
    -- A lock that another owner held before is not in conflict with the request.
    have beside : ∀ other offset value, other ≠ requested.owner → requested.Has offset →
        requested.kind ≠ .unlock → Holds held other offset value →
          value.1 ≠ .write ∧ requested.kind ≠ .write := by
      rintro other offset value ne requestHas locks ⟨lock, listed, rfl, has, rfl⟩
      have peaceful : ¬ lock.Conflicts requested := by
        simpa using find?_eq_none.mp (free locks) lock listed
      have overlap : lock.Overlaps requested := ⟨has.1.trans requestHas.2, requestHas.1.trans has.2⟩
      exact ⟨fun write => peaceful ⟨ne, overlap, .inl write⟩,
        fun write => peaceful ⟨ne, overlap, .inr write⟩⟩
    intro first second offset left right ne
    rw [holds_replaceOwnerLockRange, holds_replaceOwnerLockRange]
    split
    · rename_i firstHere
      rintro ⟨locks, rfl⟩
      rw [if_neg fun here => ne (firstHere.1.trans here.1.symm)]
      intro held
      exact (beside second offset right (fun same => ne (firstHere.1.trans same.symm))
        firstHere.2 locks held).symm
    · intro held
      split
      · rename_i secondHere
        rintro ⟨locks, rfl⟩
        exact beside first offset left (fun same => ne (same.trans secondHere.1.symm))
          secondHere.2 locks held
      · exact proper.compatible first second offset left right ne held

theorem holds_filter {other : ℕ} :
    Holds (held.filter fun lock => lock.owner ≠ other) owner offset value ↔
      owner ≠ other ∧ Holds held owner offset value := by
  simp only [Holds, mem_filter, decide_eq_true_eq]
  constructor
  · rintro ⟨lock, ⟨listed, kept⟩, rfl, holds⟩
    exact ⟨kept, lock, listed, rfl, holds⟩
  · rintro ⟨kept, lock, listed, rfl, holds⟩
    exact ⟨lock, ⟨listed, kept⟩, rfl, holds⟩

theorem Proper.filter (proper : Proper held) (other : ℕ) :
    Proper (held.filter fun lock => lock.owner ≠ other) := by
  constructor
  case valid => exact fun lock mem => proper.valid lock (mem_filter.mp mem).1
  case apart => exact proper.apart.filter _
  case compatible =>
    intro first second offset left right ne
    rw [holds_filter, holds_filter]
    exact fun inFirst inSecond =>
      proper.compatible first second offset left right ne inFirst.2 inSecond.2

end Lists

namespace LockTable

section Requests

variable {catalog : Catalog} {allocated : Bool} {table after : LockTable}
  {id handle owner offset : ℕ} {lock : FileLock}

/-- The count of a table is that of its ranges, and the locks of every file are proper. -/
structure Sound (table : LockTable) : Prop where
  proper : ∀ id, Proper (table.held id)
  counted : table.recordCount = (table.byInode.pairs.map fun entry => entry.2.length).sum

theorem view_eq_some_iff (apart : (table.held id).Pairwise Apart) {value : LockKind × ℕ} :
    table.view id owner offset = some value ↔ Holds (table.held id) owner offset value := by
  rw [view, map_eq_some_iff]
  constructor
  · rintro ⟨lock, found, rfl⟩
    have matches_ : lock.owner = owner ∧ lock.Has offset := by simpa using find?_some found
    exact ⟨lock, mem_of_find?_eq_some found, matches_.1, matches_.2, rfl⟩
  · rintro ⟨lock, listed, owned, has, rfl⟩
    cases found : (table.held id).find? fun lock => lock.owner = owner ∧ lock.Has offset with
    | none =>
      have missed := find?_eq_none.mp found lock listed
      simp [owned, has] at missed
    | some other =>
      have matches_ : other.owner = owner ∧ other.Has offset := by
        simpa using find?_some found
      have same : other = lock := by
        by_contra ne
        exact apart.forall (mem_of_find?_eq_some found) listed ne
          (matches_.1.trans owned.symm) offset ⟨matches_.2, has⟩
      exact ⟨other, rfl, same ▸ rfl⟩

theorem held_withLocks {updated : List RecordLock} {other : ℕ} :
    (table.withLocks id updated).held other = if other = id then updated else table.held other := by
  simp only [held, withLocks]
  split
  · rename_i nothing
    rw [get?_remove]
    split
    · exact nothing.symm
    · rfl
  · rw [get?_insert]
    split <;> rfl

theorem Sound.length_held_le (sound : table.Sound) :
    (table.held id).length ≤ table.recordCount := by
  rw [held, sound.counted]
  cases found : table.byInode.get? id with
  | none => exact Nat.zero_le _
  | some locks =>
    have sum := sum_remove (fun entry => entry.2.length) found
    simp only [getD_some] at sum ⊢
    omega

theorem Sound.withLocks {updated : List RecordLock} (sound : table.Sound)
    (proper : Proper updated) : (table.withLocks id updated).Sound := by
  constructor
  case proper =>
    intro other
    rw [held_withLocks]
    split
    · exact proper
    · exact sound.proper other
  case counted =>
    have enough := @Sound.length_held_le table id sound
    have counted := sound.counted
    simp only [LockTable.withLocks, held] at enough ⊢
    split
    · rename_i nothing
      cases found : table.byInode.get? id with
      | none =>
        rw [remove_of_get?_eq_none found, nothing, counted]
        rfl
      | some locks =>
        have sum := sum_remove (fun entry => entry.2.length) found
        rw [nothing, getD_some, length_nil]
        simp only at sum
        omega
    · have sum := @SortedMap.sum_insert _ _ _ _ _ _ _ _ table.byInode id updated
        fun entry => entry.2.length
      cases found : table.byInode.get? id with
      | none =>
        rw [found, elim_none] at sum
        simp only [getD_none, length_nil] at sum ⊢
        omega
      | some locks =>
        rw [found] at enough sum
        simp only [getD_some, elim_some] at enough sum ⊢
        omega

theorem admitRequest_eq_ok {done : Unit}
    (admitted : admitRequest catalog id handle lock = .ok done) : lock.start ≤ lock.finish := by
  simp only [admitRequest, bind_ok, refuse_ok, Nat.not_lt] at admitted
  rcases admitted with ⟨_, _, _, ordered, _⟩
  exact ordered

section

variable (set : table.setLock catalog allocated id handle owner lock = .ok after)

include set

theorem setLock_eq_ok : lock.start ≤ lock.finish ∧
      (lock.kind ≠ .unlock → firstLockConflict (table.held id) (.fromRequest owner lock) = none) ∧
      (replaceOwnerLockRange (table.held id) (.fromRequest owner lock) = table.held id ∧
          after = table ∨ after = table.withLocks id
          (replaceOwnerLockRange (table.held id) (.fromRequest owner lock))) := by
  rw [setLock, bind_ok] at set
  rcases set with ⟨_, admitted, set⟩
  simp only [bind_ok, refuse_ok] at set
  rcases set with ⟨_, peaceful, _, _, set⟩
  refine ⟨admitRequest_eq_ok admitted, fun locks => ?_, ?_⟩
  · simpa [locks] using peaceful
  · split at set
    · rename_i same
      cases set
      exact .inl ⟨same, rfl⟩
    · simp only [bind_ok, pure_ok] at set
      rcases set with ⟨_, _, _, _, rfl⟩
      exact .inr rfl

theorem held_of_setLock (other : ℕ) : after.held other =
      if other = id then replaceOwnerLockRange (table.held id) (.fromRequest owner lock)
      else table.held other := by
  rcases (setLock_eq_ok set).2.2 with ⟨same, rfl⟩ | rfl
  · split
    · rename_i here
      rw [same, here]
    · rfl
  · exact held_withLocks

end

variable (sound : table.Sound)

include sound

theorem Sound.setLock (set : table.setLock catalog allocated id handle owner lock = .ok after) :
    after.Sound := by
  rcases setLock_eq_ok set with ⟨ordered, peaceful, ⟨_, rfl⟩ | rfl⟩
  · exact sound
  · exact sound.withLocks ((sound.proper id).replaceOwnerLockRange ordered lock.bounded peaceful)

theorem Sound.unlockOwner (unlocked : table.unlockOwner catalog id handle owner = .ok after) :
    after.Sound := by
  simp only [LockTable.unlockOwner, bind_ok] at unlocked
  rcases unlocked with ⟨_, _, unlocked⟩
  split at unlocked
  · cases unlocked
    exact sound
  · simp only [bind_ok, pure_ok] at unlocked
    rcases unlocked with ⟨_, _, rfl⟩
    have enough := @Sound.length_held_le table id sound
    have known := @Sound.withLocks table id _ sound ((sound.proper id).filter owner)
    rw [LockTable.withLocks] at known
    convert known using 2
    omega

theorem Sound.view_of_setLock
    (set : table.setLock catalog allocated id handle owner lock = .ok after) (other holder : ℕ) :
    after.view other holder offset =
      if other = id ∧ holder = owner ∧ lock.start ≤ offset ∧ offset ≤ lock.finish then
        if lock.kind = .unlock then none else some (lock.kind, lock.pid)
      else table.view other holder offset := by
  apply Option.ext
  intro value
  rw [view_eq_some_iff ((sound.setLock set).proper other).apart, held_of_setLock set]
  by_cases here : other = id
  · subst here
    rw [if_pos rfl, holds_replaceOwnerLockRange]
    by_cases named : holder = owner ∧ lock.start ≤ offset ∧ offset ≤ lock.finish
    · have here : holder = (fromRequest owner lock).owner ∧
          (fromRequest owner lock).Has offset := named
      rw [if_pos here, if_pos ⟨rfl, named⟩]
      by_cases unlocks : lock.kind = .unlock
      · simp [unlocks, fromRequest]
      · simp [unlocks, fromRequest]
    · have elsewhere : ¬ (holder = (fromRequest owner lock).owner ∧
          (fromRequest owner lock).Has offset) := named
      rw [if_neg elsewhere, if_neg fun all => named all.2]
      exact (view_eq_some_iff (sound.proper other).apart).symm
  · rw [if_neg here, if_neg fun all => here all.1]
    exact (view_eq_some_iff (sound.proper other).apart).symm

/-- Another owner holds a byte of a request, and one of the two is for writing. -/
def Contended (table : LockTable) (id owner : ℕ) (lock : FileLock) : Prop :=
  ∃ holder offset kind pid, holder ≠ owner ∧ lock.start ≤ offset ∧ offset ≤ lock.finish ∧
    table.view id holder offset = some (kind, pid) ∧ (kind = .write ∨ lock.kind = .write)

theorem Sound.firstLockConflict_isSome_iff (ordered : lock.start ≤ lock.finish) :
    (firstLockConflict (table.held id) (.fromRequest owner lock)).isSome ↔
      table.Contended id owner lock := by
  have viewed : ∀ {holder offset value}, table.view id holder offset = some value ↔
      Holds (table.held id) holder offset value := view_eq_some_iff (sound.proper id).apart
  rw [firstLockConflict, find?_isSome]
  constructor
  · rintro ⟨candidate, listed, conflict⟩
    rcases of_decide_eq_true conflict with ⟨other, ⟨below, above⟩, write⟩
    have valid := (sound.proper id).valid candidate listed
    -- The later of the two starts lies in both ranges.
    refine ⟨candidate.owner, max candidate.start lock.start, candidate.kind, candidate.pid, other,
      le_max_right _ _, max_le below ordered, viewed.mpr ?_, write⟩
    exact ⟨candidate, listed, rfl, ⟨le_max_left _ _, max_le valid.ordered above⟩, rfl⟩
  · rintro ⟨holder, offset, kind, pid, other, starts, ends, holds, write⟩
    rcases viewed.mp holds with ⟨candidate, listed, rfl, has, same⟩
    cases same
    refine ⟨candidate, listed, decide_eq_true ⟨other, ⟨?_, ?_⟩, write⟩⟩
    · exact has.1.trans ends
    · exact starts.trans has.2

theorem Sound.setLock_eq_again_iff (admitted : admitRequest catalog id handle lock = .ok ()) :
    table.setLock catalog allocated id handle owner lock = .error (.refused .again) ↔
      lock.kind ≠ .unlock ∧ table.Contended id owner lock := by
  rw [← sound.firstLockConflict_isSome_iff (admitRequest_eq_ok admitted), LockTable.setLock,
    admitted, ok_bind]
  by_cases refused : lock.kind ≠ .unlock ∧
      (firstLockConflict (table.held id) (.fromRequest owner lock)).isSome
  · refine iff_of_true ?_ refused
    simp [refuse, require, if_pos refused]
  · refine iff_of_false ?_ refused
    simp only [refuse, require, if_neg refused, ok_bind]
    cases allocated with
    | false => simp [error_bind]
    | true =>
      simp only [Bool.true_eq_false, if_false, ok_bind]
      split
      · rintro ⟨⟩
      · split
        · simp [error_bind]
        · split
          · simp
          · rintro ⟨⟩

end Requests

section Runs

/-- A call, with the catalog whose handles it meets. -/
inductive Call where
  | set (catalog : Catalog) (allocated : Bool) (id handle owner : ℕ) (lock : FileLock)
  | unlock (catalog : Catalog) (id handle owner : ℕ)

def Call.catalog : Call → Catalog
  | .set catalog .. => catalog
  | .unlock catalog .. => catalog

/-- Serves one call. -/
def perform (table : LockTable) : Call → Except Failure LockTable
  | .set catalog allocated id handle owner lock =>
    table.setLock catalog allocated id handle owner lock
  | .unlock catalog id handle owner => table.unlockOwner catalog id handle owner

/-- A refused call leaves the table as it is, and a panic ends the run. -/
def serve (table : LockTable) (call : Call) : Option LockTable :=
  match table.perform call with
  | .ok after => some after
  | .error (.refused _) => some table
  | .error .panicked => none

def run (table : LockTable) (calls : List Call) : Option LockTable := calls.foldlM serve table

theorem sound_empty : empty.Sound where
  proper _ := ⟨nofun, List.Pairwise.nil, nofun⟩
  counted := rfl

theorem Sound.serve {table after : LockTable} {call : Call} (sound : table.Sound)
    (served : table.serve call = some after) : after.Sound := by
  unfold LockTable.serve at served
  split at served
  · rename_i result performed
    cases served
    cases call with
    | set catalog allocated id handle owner lock => exact sound.setLock performed
    | unlock catalog id handle owner => exact sound.unlockOwner performed
  · cases served
    exact sound
  · cases served

section Panics

variable {table : LockTable} {catalog : Catalog} {id handle owner : ℕ}

section

variable (held : catalog.Held)

include held

theorem refusing_validateLockHandle : Refusing (validateLockHandle catalog id handle) := by
  refine .bind ?_ fun _ => .bind .refuse fun _ => .ok
  unfold Catalog.resolveOpenFile
  cases opened : catalog.handles.get? handle with
  | none => simp [Refusing, found, error_bind]
  | some file =>
    rcases held.handles handle file opened with ⟨inode, present, _⟩
    by_cases same : file.inode = id
    · rw [← same, present]
      exact .bind .found fun _ => .bind .refuse fun _ => .expect .ok
    · simp [Refusing, found, refuse, require, same, error_bind]

theorem refusing_setLock {allocated : Bool} {lock : FileLock} :
    Refusing (table.setLock catalog allocated id handle owner lock) := by
  refine .bind (.bind (refusing_validateLockHandle held) fun _ =>
    .bind .refuse fun _ => .refuse) fun _ => .bind .refuse fun _ => .bind .refuse fun _ => ?_
  dsimp only
  split
  · exact .ok
  · exact .bind .refuse fun _ => .bind .refuse fun _ => .ok

/-- The locks of an owner are counted, so that the count does not fall below zero. -/
theorem Sound.refusing_unlockOwner (sound : table.Sound) :
    Refusing (table.unlockOwner catalog id handle owner) := by
  refine .bind (refusing_validateLockHandle held) fun _ => ?_
  have enough := @Sound.length_held_le table id sound
  dsimp only
  split
  · exact .ok
  · rw [assertThat, require, if_neg (by omega)]
    exact .ok

end

/-- A call that meets a catalog of the namespace does not panic. -/
theorem Sound.served (sound : table.Sound) {call : Call} (held : call.catalog.Held) :
    ∃ after, table.serve call = some after := by
  have refusing : Refusing (table.perform call) := by
    cases call with
    | set => exact refusing_setLock held
    | unlock => exact sound.refusing_unlockOwner held
  unfold LockTable.serve
  split
  · exact ⟨_, rfl⟩
  · exact ⟨_, rfl⟩
  · rename_i panicked
    exact absurd panicked refusing

end Panics

/-- Served calls keep the table sound. -/
theorem Sound.run {table last : LockTable} {calls : List Call} (sound : table.Sound)
    (ran : table.run calls = some last) : last.Sound := by
  induction calls generalizing table with
  | nil =>
    cases ran
    exact sound
  | cons call rest ih =>
    rw [LockTable.run, foldlM_cons, bind_eq_bind, bind_eq_some_iff] at ran
    rcases ran with ⟨after, served, later⟩
    exact ih (sound.serve served) later

/-- Whatever calls have been made, a request changes exactly the bytes that it names, it has to wait
exactly for the contended ones, owners are not in conflict, the table has one count for each of its
disjoint ranges, and no further call panics. -/
theorem recordLocks_of_run {calls : List Call} {table : LockTable}
    (ran : empty.run calls = some table) :
    (∀ catalog allocated id handle owner lock after,
      table.setLock catalog allocated id handle owner lock = .ok after →
        ∀ other holder offset, after.view other holder offset =
          if other = id ∧ holder = owner ∧ lock.start ≤ offset ∧ offset ≤ lock.finish then
            if lock.kind = .unlock then none else some (lock.kind, lock.pid)
          else table.view other holder offset) ∧
    (∀ catalog allocated id handle owner lock, admitRequest catalog id handle lock = .ok () →
      (table.setLock catalog allocated id handle owner lock = .error (.refused .again) ↔
        lock.kind ≠ .unlock ∧ table.Contended id owner lock)) ∧
    (∀ id first second offset left right, first ≠ second →
      table.view id first offset = some left → table.view id second offset = some right →
        left.1 ≠ .write ∧ right.1 ≠ .write) ∧
    (∀ id, (table.held id).Pairwise fun left right => left.owner = right.owner →
      left.finish < right.start ∨ right.finish < left.start) ∧
    table.recordCount = (table.byInode.pairs.map fun entry => entry.2.length).sum ∧
    ∀ call config, call.catalog.Reached config → ∃ after, table.serve call = some after := by
  have sound := sound_empty.run ran
  refine ⟨?_, ?_, ?_, ?_, sound.counted, fun _ _ reached => sound.served reached.tree.held⟩
  · exact fun _ _ _ _ _ _ _ set other holder _ => sound.view_of_setLock set other holder
  · exact fun _ _ _ _ _ _ admitted => sound.setLock_eq_again_iff admitted
  · intro id first second offset left right different inFirst inSecond
    have apart := (sound.proper id).apart
    exact (sound.proper id).compatible first second offset left right different
      ((view_eq_some_iff apart).mp inFirst) ((view_eq_some_iff apart).mp inSecond)
  · intro id
    refine (sound.proper id).apart.imp_of_mem ?_
    intro left right inLeft inRight apart same
    have leftOrdered := ((sound.proper id).valid left inLeft).ordered
    have rightOrdered := ((sound.proper id).valid right inRight).ordered
    by_contra overlap
    refine apart same (max left.start right.start) ⟨⟨le_max_left _ _, ?_⟩, ⟨le_max_right _ _, ?_⟩⟩
    · omega
    · omega

/-- A new file, open for reading and writing. -/
def openFile : Catalog :=
  ((Catalog.newVolatile ⟨0, 0⟩).run ⟨255, 2 ^ 40⟩
    [Catalog.granted (Catalog.createIn ROOT_INODE [0x61])]).getD (Catalog.newVolatile ⟨0, 0⟩)

def writeLock : FileLock where
  start := 0
  finish := 9
  kind := .write
  pid := 7
  bounded := by decide

def unlockRequest : FileLock := { writeLock with kind := .unlock }

/-- A lock for reading. -/
def readLock (start : ℕ) (finish : Fin (2 ^ 64)) : FileLock where
  start := start
  finish := finish
  kind := .read
  pid := 8
  bounded := finish.isLt

/-- Owner 1 locks ten bytes and opens a gap in them. Owner 2 is refused before the gap is there,
takes it afterwards, and extends another lock by an adjacent one. -/
def sharedFile : List Call :=
  [.set openFile true 2 1 1 writeLock, .set openFile true 2 1 2 (readLock 4 5),
    .set openFile true 2 1 1 { readLock 4 5 with kind := .unlock },
    .set openFile true 2 1 2 (readLock 4 5), .set openFile true 2 1 2 (readLock 20 29),
    .set openFile true 2 1 2 (readLock 30 39)]

/-- One lock has been split and one merged; owner 1 waits for the gap, which keeps its holder. -/
theorem recordLocks_of_sharedFile : ∃ table, empty.run sharedFile = some table ∧
    table.held 2 = [⟨1, 0, 3, .write, 7⟩, ⟨2, 4, 5, .read, 8⟩, ⟨1, 6, 9, .write, 7⟩,
      ⟨2, 20, 39, .read, 8⟩] ∧
    table.setLock openFile true 2 1 1 writeLock = .error (.refused .again) ∧
    table.recordCount = (table.byInode.pairs.map fun entry => entry.2.length).sum ∧
    ∀ after, table.setLock openFile true 2 1 1 unlockRequest = .ok after →
      after.view 2 1 3 = none ∧ after.view 2 2 4 = some (.read, 8) := by
  refine ⟨_, rfl, rfl, ?_⟩
  have locks := @recordLocks_of_run sharedFile _ rfl
  refine ⟨?_, locks.2.2.2.2.1, fun after unlocked => ?_⟩
  · refine (locks.2.1 openFile true 2 1 1 writeLock rfl).mpr ⟨by decide, 2, 4, .read, 8, ?_⟩
    decide
  · have changed := locks.1 _ _ _ _ _ _ _ unlocked
    exact ⟨(changed 2 1 3).trans rfl, (changed 2 2 4).trans rfl⟩

/-- An owner unlocks a range on which another one holds a lock for writing. -/
theorem unlock_not_refused : ∃ table after,
    empty.run [.set openFile true 2 1 1 writeLock] = some table ∧
      table.Contended 2 2 unlockRequest ∧ admitRequest openFile 2 1 unlockRequest = .ok () ∧
      table.setLock openFile true 2 1 2 unlockRequest = .ok after := by
  refine ⟨_, _, rfl, ⟨1, 0, .write, 7, ?_⟩, rfl, rfl⟩
  decide

end Runs

end LockTable

end Fastdup.Posix
