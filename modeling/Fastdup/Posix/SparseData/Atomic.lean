import Fastdup.Posix.SparseData.Externalize

/-!
# Changes that fail

A change that fails should leave the data as it was. Clearing a range plans its copies before it
changes a map, so it either happens or does not. A write and a truncation clear the external map
before they plan the copies, and several runs are cleared one after the other: there a copy that is
refused leaves data behind that lacks what has been cleared.
-/

namespace Fastdup.Posix

open Library Checked Attempt Nat SparseData List

variable {plan : RunPlan}

namespace SparseData

variable {File : Type} [CommittedFile File]

/-- The edits of the dirty data that may fail on the way. -/
inductive Change (File : Type) where
  | write (offset : ℕ) (payload : MutationPayload) (sequence : ℕ)
  | writeExternal (offset : ℕ) (source : File) (sourceOffset length sequence : ℕ)
  | truncate (length : ℕ)
  | punch (start stop : ℕ)
  | externalizeMany (candidates : List (Candidate File))

namespace Change

def run : Change File → Attempt (SparseData File × Memory) Failure Unit
  | write offset payload sequence => SparseData.write offset payload sequence
  | writeExternal offset source sourceOffset length sequence =>
    SparseData.writeExternal offset source sourceOffset length sequence
  | truncate length => SparseData.truncate length
  | punch start stop => SparseData.punch start stop
  | externalizeMany candidates => SparseData.externalizeMany candidates

/-- No copy is made after a part of the data has been cleared. -/
def PlansFirst (data : SparseData File) : Change File → Prop
  | write offset payload _ =>
    0 < payload.length → offset + payload.length < 2 ^ 64 →
    (∃ extent ∈ data.externalExtents.pairs,
      SortedMap.Overlaps offset (offset + payload.length) extent) →
    copiesIn offset (offset + payload.length) data.extents = 0
  | writeExternal _ _ _ _ _ => True
  | truncate length =>
    length < data.logicalSize →
    (∃ extent ∈ data.externalExtents.pairs, SortedMap.Overlaps length data.logicalSize extent) →
    crossingCopies length data.extents = 0
  | punch _ _ => True
  | externalizeMany candidates =>
    ∀ plan, planRuns (sortCandidates candidates) data = .ok plan →
      ∀ run rest, plan.runs = run :: rest →
        copiesInAll rest (data.extents.cut run.1 run.2) = 0

end Change

/-- A program that leaves the data as it was whenever it returns an error. -/
def Atomic (program : Attempt (SparseData File × Memory) Failure Unit) (data : SparseData File) :
    Prop :=
  ∀ memory error state, program (data, memory) = (.error (.refused error), state) → state.1 = data

variable {data : SparseData File}

omit [CommittedFile File] in
theorem Changes.atomic_iff {program : Attempt (SparseData File × Memory) Failure Unit}
    {result broken : SparseData File} {copies : ℕ}
    (changes : Changes program data copies result broken) :
    Atomic program data ↔ (broken = data ∨ copies = 0) := by
  constructor
  · intro atomic
    by_cases none : copies = 0
    · exact .inr none
    · have refused : false ∈ take copies [false] := by
        rw [take_of_length_le (by simp only [length_singleton]; omega)]
        exact mem_cons_self
      rcases changes.refused [false] refused with ⟨rest, failed⟩
      exact .inl (atomic [false] _ _ failed)
  · intro either memory error state failed
    by_cases refused : false ∈ memory.take copies
    · rcases changes.refused memory refused with ⟨rest, stopped⟩
      rw [stopped] at failed
      cases failed
      rcases either with same | none
      · exact same
      · rw [none] at refused
        cases refused
    · rw [changes.granted memory refused] at failed
      cases failed

omit [CommittedFile File] in
theorem atomic_of_settle {α : Type} {check : Except Failure α}
    {next : α → Attempt (SparseData File × Memory) Failure Unit}
    (later : ∀ value, check = .ok value → Atomic (next value) data) :
    Atomic (Attempt.settle (fun _ => check) >>= next) data := by
  intro memory error state failed
  cases passed : check with
  | ok value =>
    rw [bind_of_ok (by rw [settle_apply, passed])] at failed
    exact later value passed memory error state failed
  | error failure =>
    rw [bind_of_error (by rw [settle_apply, passed])] at failed
    cases failed
    rfl

variable {candidates : List (Candidate File)}

section Maps

variable {size : ℕ} {extents : SortedMap ℕ ResidentDirtyData}
  {external : SortedMap ℕ (ExternalDirtyData File)}

section

variable (fits : Fits size extents external)

include fits

/-- Clearing a range of the external map changes it if an extent overlaps the range. -/
theorem Fits.ofMaps_cutExternal_iff {start stop : ℕ} (ordered : start < stop) :
    ofMaps size extents (external.cut start stop) = ofMaps size extents external ↔
      ¬ ∃ extent ∈ external.pairs, SortedMap.Overlaps start stop extent := by
  constructor
  · rintro same ⟨extent, mem, overlaps⟩
    have sameMap : external.cut start stop = external := congrArg externalExtents same
    rw [← sameMap] at mem
    exact free_cut fits.external ordered extent mem overlaps
  · intro none
    rw [fits.external.cut_eq_self ordered]
    intro extent mem overlaps
    exact none ⟨extent, mem, overlaps⟩

theorem Fits.atomic_write_iff (offset : ℕ) (payload : MutationPayload) (sequence : ℕ) :
    Atomic (SparseData.write offset payload sequence) (ofMaps size extents external) ↔
      Change.PlansFirst (ofMaps size extents external) (.write offset payload sequence) := by
  by_cases nonempty : 0 < payload.length
  · by_cases small : offset + payload.length < 2 ^ 64
    · have ordered : offset < offset + payload.length := by omega
      rw [(fits.write nonempty small).atomic_iff, fits.ofMaps_cutExternal_iff ordered]
      constructor
      · rintro (none | none) _ _ overlap
        · exact absurd overlap none
        · exact none
      · intro plansFirst
        by_cases overlap : ∃ extent ∈ external.pairs,
            SortedMap.Overlaps offset (offset + payload.length) extent
        · exact .inr (plansFirst nonempty small overlap)
        · exact .inl overlap
    · refine iff_of_true ?_ fun _ fits => absurd fits small
      refine atomic_of_settle fun _ _ => atomic_of_settle fun stop added => ?_
      exact absurd (checkedAdd_ok.mp added).1 small
  · refine iff_of_true ?_ fun starts => absurd starts nonempty
    refine atomic_of_settle fun _ passed => ?_
    exact absurd (require_ok.mp passed) (not_not.mpr nonempty)

theorem Fits.atomic_writeExternal (offset : ℕ) (source : File) (sourceOffset length sequence : ℕ) :
    Atomic (writeExternal offset source sourceOffset length sequence)
      (ofMaps size extents external) := by
  refine atomic_of_settle fun _ starts => atomic_of_settle fun stop added =>
    atomic_of_settle fun sourceEnd sourceAdded => atomic_of_settle fun _ inside =>
      atomic_of_settle fun _ _ => atomic_of_settle fun _ _ => ?_
  rcases checkedAdd_ok.mp added with ⟨small, rfl⟩
  rcases checkedAdd_ok.mp sourceAdded with ⟨_, rfl⟩
  have nonempty : 0 < length := not_not.mp (require_ok.mp starts)
  have fitsSource := require_ok.mp inside
  exact (@Fits.placeExternal _ ⟨source, sourceOffset, length, sequence⟩ _ _ _ _ fits offset nonempty
    small (Nat.le_of_not_lt fitsSource)).atomic_iff.mpr (.inl rfl)

theorem Fits.atomic_truncate_iff (length : ℕ) :
    Atomic (SparseData.truncate length) (ofMaps size extents external) ↔
      Change.PlansFirst (ofMaps size extents external) (.truncate length) := by
  by_cases shrinks : length < size
  · rw [(fits.truncate shrinks).atomic_iff, fits.ofMaps_cutExternal_iff shrinks]
    constructor
    · rintro (none | none) _ overlap
      · exact absurd overlap none
      · exact none
    · intro plansFirst
      by_cases overlap : ∃ extent ∈ external.pairs, SortedMap.Overlaps length size extent
      · exact .inr (plansFirst shrinks overlap)
      · exact .inl overlap
  · refine iff_of_true ?_ fun smaller => absurd smaller shrinks
    intro memory error state failed
    rw [truncate_of_le (by omega) memory] at failed
    cases failed

theorem Fits.atomic_punch (start stop : ℕ) :
    Atomic (SparseData.punch start stop) (ofMaps size extents external) := by
  by_cases ordered : start < stop
  · exact (fits.punch ordered).atomic_iff.mpr (.inl rfl)
  · refine atomic_of_settle fun _ passed => ?_
    have same : start = stop := by
      have upTo := not_not.mp (require_ok.mp passed)
      omega
    rw [if_pos same]
    exact fun _ _ _ failed => nomatch failed

end

theorem copiesInAll_append (first second : List (ℕ × ℕ)) (extents : SortedMap ℕ ResidentDirtyData) :
    copiesInAll (first ++ second) extents =
      copiesInAll first extents + copiesInAll second (extents.cutAll first) := by
  induction first generalizing extents with
  | nil => exact (zero_add _).symm
  | cons run rest ih =>
    rw [cons_append, copiesInAll, copiesInAll, ih, add_assoc]
    rfl

theorem externalizeMany_of_clearRuns_error (some : candidates ≠ [])
    (ran : planRuns (sortCandidates candidates) (ofMaps size extents external) = .ok plan)
    {memory : Memory} {failure : Failure} {state : SparseData File × Memory}
    (failed : plan.runs.forM clearRun (ofMaps size extents external, memory) =
      (.error failure, state)) :
    externalizeMany candidates (ofMaps size extents external, memory) =
      (.error failure, state) := by
  rw [externalizeMany_of_planned some ran]
  exact bind_of_error failed

theorem Fits.ofMaps_cutAll_ne (fits : Fits size extents external)
    (planned : Planned (ofMaps size extents external) candidates plan) {run : ℕ × ℕ}
    {done later : List (ℕ × ℕ)} (split : plan.runs = run :: done ++ later) :
    ofMaps size (extents.cutAll (run :: done)) (external.cutAll (run :: done)) ≠
      ofMaps size extents external := by
  have inRuns : ∀ other ∈ run :: done, other ∈ plan.runs := by
    intro other mem
    rw [split]
    exact mem_append_left _ mem
  have ordered : ∀ other ∈ run :: done, other.1 < other.2 := fun other mem =>
    planned.runs other (inRuns other mem)
  have cleared : ∃ other ∈ run :: done, other.1 ≤ run.1 ∧ run.1 < other.2 :=
    ⟨run, mem_cons_self, le_refl _, ordered run mem_cons_self⟩
  have covered : ∃ other ∈ plan.runs, other.1 ≤ run.1 ∧ run.1 < other.2 := by
    rcases cleared with ⟨other, mem, place⟩
    exact ⟨other, inRuns other mem, place⟩
  rcases (planned.covers run.1).mp covered with ⟨candidate, mem, after, before⟩
  have accepted := planned.accepted candidate mem
  rcases fits.unchangedFrom_sound accepted.unchanged after before with ⟨sequence, _, recorded⟩
  intro same
  rw [← same] at recorded
  change (((extents.cutAll (run :: done)).at? run.1).map Stored.sequence).or
    (((external.cutAll (run :: done)).at? run.1).map Place.sequence) = _ at recorded
  rw [fits.resident.at?_cutAll ordered, fits.external.at?_cutAll ordered, if_pos cleared,
    if_pos cleared] at recorded
  cases recorded

theorem Fits.atomic_externalizeMany_iff (fits : Fits size extents external)
    (candidates : List (Candidate File)) :
    Atomic (SparseData.externalizeMany candidates) (ofMaps size extents external) ↔
      Change.PlansFirst (ofMaps size extents external) (.externalizeMany candidates) := by
  by_cases none : candidates = []
  · subst none
    constructor
    · intro _ plan ran run rest isRuns
      have empty : sortCandidates ([] : List (Candidate File)) = [] := mergeSort_nil
      rw [empty] at ran
      cases ran
      cases isRuns
    · intro _ memory error state failed
      cases failed
  · cases ran : planRuns (sortCandidates candidates) (ofMaps size extents external) with
    | error failure =>
      constructor
      · intro _ plan planned
        rw [ran] at planned
        cases planned
      · intro _ memory error state failed
        rw [externalizeMany_of_error memory none ran] at failed
        cases failed
        rfl
    | ok plan =>
      have planned := planned_of_planRuns ran
      constructor
      · intro atomic other otherReturned run rest isRuns
        rw [ran] at otherReturned
        cases otherReturned
        by_contra copies
        change copiesInAll rest (extents.cut run.1 run.2) ≠ 0 at copies
        have firstOrdered : run.1 < run.2 := planned.runs run (isRuns ▸ mem_cons_self)
        have restOrdered : ∀ other ∈ rest, other.1 < other.2 := fun other mem =>
          planned.runs other (isRuns ▸ mem_cons_of_mem _ mem)
        -- the copies of the first run are granted, the next one is refused
        let memory : Memory := replicate (copiesIn run.1 run.2 extents) true ++ [false]
        have granted : false ∉ memory.take (copiesIn run.1 run.2 extents) := by
          rw [take_left' (length_replicate)]
          intro mem
          cases eq_of_mem_replicate mem
        have left : memory.drop (copiesIn run.1 run.2 extents) = [false] :=
          drop_left' length_replicate
        have refused : false ∈ take (copiesInAll rest (extents.cut run.1 run.2)) [false] := by
          rw [take_of_length_le (by simp only [length_singleton]; omega)]
          exact mem_cons_self
        have first := (fits.clearRun firstOrdered).granted memory granted
        rw [left] at first
        rcases (fits.clear firstOrdered).clearRuns_refused restOrdered refused with
          ⟨done, later, remaining, split, _, stopped⟩
        have failed : plan.runs.forM SparseData.clearRun (ofMaps size extents external, memory) =
            (.error (.refused .outOfMemory), (ofMaps size (extents.cutAll (run :: done))
              (external.cutAll (run :: done)), remaining)) := by
          rw [isRuns]
          change (SparseData.clearRun run >>= fun _ => rest.forM SparseData.clearRun) _ = _
          rw [bind_of_ok first, stopped]
          rfl
        have same := atomic _ _ _ (externalizeMany_of_clearRuns_error none ran failed)
        have splitRuns : plan.runs = run :: done ++ later := by
          rw [isRuns, split]
          rfl
        exact fits.ofMaps_cutAll_ne planned splitRuns same
      · intro plansFirst memory error state failed
        by_cases refused : false ∈ memory.take (copiesInAll plan.runs extents)
        · rcases fits.clearRuns_refused planned.runs refused with
            ⟨done, later, remaining, split, copies, stopped⟩
          rw [externalizeMany_of_clearRuns_error none ran stopped] at failed
          cases failed
          cases done with
          | nil => rfl
          | cons run rest =>
            have noCopies := plansFirst plan ran run (rest ++ later) split
            rw [copiesInAll_append] at noCopies
            have sameCut : (extents.cut run.1 run.2).cutAll rest =
              extents.cutAll (run :: rest) := rfl
            change _ + copiesInAll later ((extents.cut run.1 run.2).cutAll rest) = 0 at noCopies
            rw [sameCut] at noCopies
            omega
        · rw [fits.externalizeMany none ran refused] at failed
          cases failed

end Maps

/-- A change of valid data that returns an error leaves the data as it was, whatever copies are
refused, if and only if it makes no copy after it has cleared a part of the data. -/
theorem atomic_iff_plansFirst (valid : data.Valid) (change : Change File) :
    Atomic change.run data ↔ change.PlansFirst data := by
  have fits := valid.fits
  rw [valid.counted]
  cases change with
  | write offset payload sequence => exact fits.atomic_write_iff offset payload sequence
  | writeExternal offset source sourceOffset length sequence =>
    exact iff_of_true (fits.atomic_writeExternal offset source sourceOffset length sequence) trivial
  | truncate length => exact fits.atomic_truncate_iff length
  | punch start stop => exact iff_of_true (fits.atomic_punch start stop) trivial
  | externalizeMany candidates => exact fits.atomic_externalizeMany_iff candidates

/-- Two bytes of another file, and eight resident bytes behind them. -/
def zerosAndBytes : SparseData (Source Empty) :=
  ofMaps 10 (SortedMap.empty.insert 2 ⟨.fromOwnedBytes (List.replicate 8 7), 2⟩)
    (SortedMap.empty.insert 0 ⟨.zero 1 0 2, 0, 2, 1⟩)

theorem valid_zerosAndBytes : zerosAndBytes.Valid := by
  have empty : Fits 10 .empty (.empty : SortedMap ℕ (ExternalDirtyData (Source Empty))) :=
    fits_empty (by decide)
  have zeros := @Fits.insertExternal 0 (Source Empty) _ 10 _ _ ⟨.zero 1 0 2, 0, 2, 1⟩ empty
    (by decide) (by decide) (by decide) (fun _ mem => nomatch mem)
      (fun _ mem => nomatch mem)
  exact (@Fits.insertResident 2 (Source Empty) _ 10 _ _ zeros
    ⟨.fromOwnedBytes (replicate 8 7), 2⟩ (by decide) (by decide)
    (fun _ mem => nomatch mem) (by decide)).valid

/-- A write that reaches no external data is atomic, even if it makes a copy. -/
theorem atomic_write_behind_zeros :
    copiesIn 2 9 zerosAndBytes.extents = 1 ∧
      Atomic (Change.run (.write 2 (.fromOwnedBytes (List.replicate 7 9)) 3)) zerosAndBytes := by
  refine ⟨by decide, (atomic_iff_plansFirst valid_zerosAndBytes _).mpr ?_⟩
  intro _ _ overlap
  revert overlap
  decide

/-- A write over both whose copy of the last byte is refused: the second byte of the other file is
gone. -/
theorem refused_write_loses_byte :
    zerosAndBytes.Valid ∧ ∃ left,
      Change.run (.write 1 (.fromOwnedBytes (List.replicate 8 9)) 3) (zerosAndBytes, [false]) =
        (.error (.refused .outOfMemory), (left, [])) ∧
      zerosAndBytes.externalExtents.at? 1 = some ⟨.zero 1 0 2, 1, 1⟩ ∧
      left.externalExtents.at? 1 = none ∧ left.extents.at? 1 = none ∧
      zerosAndBytes.allocatedBytes = 10 ∧ left.allocatedBytes = 9 := by
  refine ⟨valid_zerosAndBytes, _, rfl, ?_⟩
  decide

section Runs

variable {memory : Memory} {program : Attempt (SparseData File × Memory) Failure Unit}

theorem Changes.leaves_valid {copies : ℕ} {result broken : SparseData File}
    (changes : Changes program data copies result broken) (done : result.Valid)
    (stopped : broken.Valid) : (program (data, memory)).2.1.Valid := by
  by_cases refused : false ∈ memory.take copies
  · rcases changes.refused memory refused with ⟨rest, failed⟩
    rwa [failed]
  · rwa [changes.granted memory refused]

theorem Valid.of_settle {α : Type} {check : Except Failure α}
    {next : α → Attempt (SparseData File × Memory) Failure Unit} (valid : data.Valid)
    (later : ∀ value, check = .ok value → (next value (data, memory)).2.1.Valid) :
    ((Attempt.settle (fun _ => check) >>= next) (data, memory)).2.1.Valid := by
  cases passed : check with
  | ok value => exact later value passed
  | error failure => exact valid

theorem Fits.leaves_valid {size : ℕ} {extents : SortedMap ℕ ResidentDirtyData}
    {external : SortedMap ℕ (ExternalDirtyData File)} (fits : Fits size extents external)
    (change : Change File) (word : ∀ length, change = .truncate length → length < 2 ^ 64) :
    (change.run (ofMaps size extents external, memory)).2.1.Valid := by
  have valid := fits.valid
  cases change with
  | write offset payload sequence =>
    by_cases fitting : 0 < payload.length ∧ offset + payload.length < 2 ^ 64
    · rcases fitting with ⟨nonempty, small⟩
      exact (fits.write nonempty small).leaves_valid (fits.written nonempty small).valid
        (fits.cutExternal (by omega)).valid
    · refine valid.of_settle fun _ starts => valid.of_settle fun _ added => ?_
      exact absurd ⟨not_not.mp (require_ok.mp starts), (checkedAdd_ok.mp added).1⟩ fitting
  | writeExternal offset source sourceOffset length sequence =>
    refine valid.of_settle fun _ starts => valid.of_settle fun _ added =>
      valid.of_settle fun _ sourceAdded => valid.of_settle fun _ inside =>
        valid.of_settle fun _ _ => valid.of_settle fun _ _ => ?_
    rcases checkedAdd_ok.mp added with ⟨small, rfl⟩
    rcases checkedAdd_ok.mp sourceAdded with ⟨_, rfl⟩
    have nonempty := not_not.mp (require_ok.mp starts)
    have room := Nat.le_of_not_lt (require_ok.mp inside)
    exact (@Fits.placeExternal _ ⟨source, sourceOffset, length, sequence⟩ _ _ _ _ fits offset
      nonempty small room).leaves_valid (fits.writtenExternal nonempty small room).valid valid
  | truncate length =>
    by_cases shrinks : length < size
    · exact (fits.truncate shrinks).leaves_valid (fits.truncated shrinks).valid
        (fits.cutExternal shrinks).valid
    · rw [Change.run, truncate_of_le (by omega) memory]
      exact (fits.grow (by omega) (word length rfl)).valid
  | punch start stop =>
    by_cases ordered : start < stop
    · exact (fits.punch ordered).leaves_valid (fits.clear ordered).valid valid
    · refine valid.of_settle fun _ passed => ?_
      have upTo := not_not.mp (require_ok.mp passed)
      rwa [if_pos (by omega)]
  | externalizeMany candidates =>
    rw [Change.run]
    by_cases none : candidates = []
    · rwa [none]
    · cases ran : planRuns (sortCandidates candidates) (ofMaps size extents external) with
      | error failure => rwa [externalizeMany_of_error memory none ran]
      | ok plan =>
        have planned := planned_of_planRuns ran
        by_cases refused : false ∈ memory.take (copiesInAll plan.runs extents)
        · -- the runs before the refused copy have been cleared
          rcases fits.clearRuns_refused planned.runs refused with
            ⟨done, later, _, split, _, stopped⟩
          rw [externalizeMany_of_clearRuns_error none ran stopped]
          exact (fits.cutAll fun run mem =>
            planned.runs run (split ▸ mem_append_left later mem)).valid
        · rw [fits.externalizeMany none ran refused]
          exact ((fits.cutAll planned.runs).putCandidates (fits.insertable planned)).2.1.valid

/-- Data stays valid in every run of changes, whatever each of them returns and whatever copies are
refused on the way. -/
theorem valid_of_changes (valid : data.Valid) (changes : List (Change File))
    (words : ∀ length, .truncate length ∈ changes → length < 2 ^ 64) :
    (changes.foldl (fun state change => (change.run state).2) (data, memory)).1.Valid := by
  induction changes generalizing data memory with
  | nil => exact valid
  | cons change rest ih =>
    refine ih ?_ fun length mem => words length (mem_cons_of_mem change mem)
    rw [valid.counted]
    exact valid.fits.leaves_valid change fun length same => words length (same ▸ mem_cons_self)

/-- A write, a truncation and a punch, of which a copy may fail. -/
theorem valid_of_changes_on_zeros : (([.write 1 (.fromOwnedBytes (replicate 8 9)) 3, .truncate 4,
    .punch 0 2].foldl (fun state change => (Change.run change state).2)
      (zerosAndBytes, [false])).1).Valid :=
  valid_of_changes valid_zerosAndBytes _ (by simp)

end Runs

end SparseData

end Fastdup.Posix
