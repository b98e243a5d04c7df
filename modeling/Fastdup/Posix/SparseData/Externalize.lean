import Fastdup.Posix.SparseData.Changes

/-!
# Replacing resident data

A candidate takes the place of the data of its range when no later mutation has touched the range.
The candidates of a call are checked one after the other, their ranges are joined to runs, the runs
are cleared, and the candidates are put in.
-/

namespace Fastdup.Posix

open Library Checked Attempt SortedMap List

namespace SparseData

variable {File : Type}

/-- The mutation that wrote the byte, if it is dirty. -/
def sequenceAt? (data : SparseData File) (position : ℕ) : Option ℕ :=
  ((data.extents.at? position).map Stored.sequence).or
    ((data.externalExtents.at? position).map Place.sequence)

section Unchanged

variable [CommittedFile File] {size : ℕ} {extents : SortedMap ℕ ResidentDirtyData}
  {external : SortedMap ℕ (ExternalDirtyData File)}

theorem Fits.sequenceAt?_of_extentOver (fits : Fits size extents external)
    {cursor extentEnd sequence : ℕ}
    (found : (ofMaps size extents external).extentOver cursor = some (extentEnd, sequence)) :
    cursor < extentEnd ∧ ∀ position, cursor ≤ position → position < extentEnd →
      (ofMaps size extents external).sequenceAt? position = some sequence := by
  rw [extentOver, Option.or_eq_some_iff] at found
  rcases found with resident | ⟨_, isExternal⟩
  · rcases Option.bind_eq_some_iff.mp resident with ⟨extent, floor, reaches⟩
    rcases floor?_eq_some_iff.mp floor with ⟨mem, upTo, _⟩
    split at reaches
    · rename_i inside
      cases reaches
      refine ⟨inside.1, ?_⟩
      intro position after before
      have stored := fits.resident.at?_of_mem mem ⟨upTo.trans after, before⟩
      change ((extents.at? position).map Stored.sequence).or _ = _
      rw [stored]
      rfl
    · cases reaches
  · rcases Option.bind_eq_some_iff.mp isExternal with ⟨extent, floor, reaches⟩
    rcases floor?_eq_some_iff.mp floor with ⟨mem, upTo, _⟩
    split at reaches
    · rename_i inside
      cases reaches
      refine ⟨inside.1, ?_⟩
      intro position after before
      have placed := fits.external.at?_of_mem mem ⟨upTo.trans after, before⟩
      have absent : extents.at? position = none := by
        cases stored : extents.at? position with
        | none => rfl
        | some content =>
          rw [fits.at?_eq_none stored] at placed
          cases placed
      change ((extents.at? position).map Stored.sequence).or
        ((external.at? position).map Place.sequence) = _
      rw [absent, placed]
      rfl
    · cases reaches

/-- The loop passes a range only if every position of it has data of an earlier mutation. -/
theorem Fits.unchangedFrom_sound (fits : Fits size extents external) {stop through fuel cursor : ℕ}
    (passed : (ofMaps size extents external).unchangedFrom stop through fuel cursor = true)
    {position : ℕ} (after : cursor ≤ position) (before : position < stop) :
    ∃ sequence ≤ through, (ofMaps size extents external).sequenceAt? position = some sequence := by
  induction fuel generalizing cursor with
  | zero =>
    rw [unchangedFrom, decide_eq_true_eq] at passed
    omega
  | succ fuel ih =>
    rw [unchangedFrom, if_pos (by omega)] at passed
    cases found : (ofMaps size extents external).extentOver cursor with
    | none =>
      rw [found] at passed
      cases passed
    | some extent =>
      rcases extent with ⟨extentEnd, sequence⟩
      rcases fits.sequenceAt?_of_extentOver found with ⟨advances, recorded⟩
      rw [found] at passed
      dsimp only at passed
      split at passed
      · cases passed
      · by_cases within : position < extentEnd
        · exact ⟨sequence, by omega, recorded position after within⟩
        · exact ih passed (by omega)

end Unchanged

section Plan

variable [CommittedFile File] {data : SparseData File}

def Candidate.stop (candidate : Candidate File) : ℕ :=
  candidate.offset + CommittedFile.logicalSize candidate.source

/-- A candidate that still stands for the bytes it was copied from. -/
structure Accepted (data : SparseData File) (candidate : Candidate File) : Prop where
  nonempty : candidate.offset < candidate.stop
  inside : candidate.stop ≤ data.logicalSize
  allocated : CommittedFile.allocatedBytes candidate.source =
    CommittedFile.logicalSize candidate.source
  unchanged : data.rangeUnchangedThrough candidate.offset candidate.stop candidate.throughSequence

/-- The plan covers the candidates that were looked at, and nothing else. -/
structure Planned (data : SparseData File) (done : List (Candidate File)) (plan : RunPlan) :
    Prop where
  accepted : ∀ candidate ∈ done, Accepted data candidate
  ordered : done.Pairwise fun left right => left.stop ≤ right.offset
  bounded : ∀ candidate ∈ done, ∃ stop, plan.previousEnd = some stop ∧ candidate.stop ≤ stop
  runs : ∀ run ∈ plan.runs, run.1 < run.2
  covers : ∀ position, (∃ run ∈ plan.runs, run.1 ≤ position ∧ position < run.2) ↔
    ∃ candidate ∈ done, candidate.offset ≤ position ∧ position < candidate.stop

theorem mem_joinRun {offset stop : ℕ} (nonempty : offset < stop) {runs : List (ℕ × ℕ)}
    (ordered : ∀ run ∈ runs, run.1 < run.2) : (∀ run ∈ joinRun offset stop runs, run.1 < run.2) ∧
      ∀ position, (∃ run ∈ joinRun offset stop runs, run.1 ≤ position ∧ position < run.2) ↔
        (∃ run ∈ runs, run.1 ≤ position ∧ position < run.2) ∨
          offset ≤ position ∧ position < stop := by
  rw [joinRun]
  cases last : runs.getLast? with
  | none =>
    rw [getLast?_eq_none_iff.mp last]
    simp [nonempty]
  | some run =>
    rcases getLast?_eq_some_iff.mp last with ⟨before, rfl⟩
    have lastOrdered := ordered run (mem_append_right _ mem_cons_self)
    dsimp only
    split
    · rw [dropLast_concat]
      constructor
      · intro other mem
        rcases mem_append.mp mem with earlier | isLast
        · exact ordered other (mem_append_left _ earlier)
        · rw [mem_singleton.mp isLast]
          omega
      · intro position
        simp only [mem_append, mem_singleton, or_and_right, exists_or, exists_eq_left]
        constructor
        · rintro (earlier | ⟨starts, stops⟩)
          · exact .inl (.inl earlier)
          · by_cases inRun : position < run.2
            · exact .inl (.inr ⟨starts, inRun⟩)
            · exact .inr ⟨by omega, stops⟩
        · rintro ((earlier | ⟨starts, stops⟩) | ⟨starts, stops⟩)
          · exact .inl earlier
          · exact .inr ⟨starts, by omega⟩
          · exact .inr ⟨by omega, stops⟩
    · constructor
      · exact forall_mem_append.mpr ⟨ordered, forall_mem_singleton.mpr nonempty⟩
      · intro position
        simp only [mem_append, mem_singleton, or_and_right, exists_or, exists_eq_left]

theorem Planned.step {done : List (Candidate File)} {plan next : RunPlan}
    {candidate : Candidate File} (planned : Planned data done plan)
    (ran : planRun data plan candidate = .ok next) : Planned data (done ++ [candidate]) next := by
  rcases bind_ok.mp ran with ⟨stop, added, rest⟩
  rcases bind_ok.mp rest with ⟨_, checked, made⟩
  rcases checkedAdd_ok.mp added with ⟨_, isStop⟩
  rw [pure_ok] at made
  have passed := require_ok.mp checked
  push Not at passed
  rcases passed with ⟨nonempty, inside, allocated, after, unchanged⟩
  change stop = candidate.stop at isStop
  subst isStop
  have starts : candidate.offset < candidate.stop := by
    change candidate.offset < candidate.offset + CommittedFile.logicalSize candidate.source
    omega
  have joined := mem_joinRun starts planned.runs
  subst made
  constructor
  case accepted =>
    exact forall_mem_append.mpr ⟨planned.accepted, forall_mem_singleton.mpr ⟨starts,
      inside, allocated, unchanged⟩⟩
  case ordered =>
    refine pairwise_append.mpr ⟨planned.ordered, pairwise_singleton _ _, ?_⟩
    intro earlier mem later isNew
    rw [mem_singleton.mp isNew]
    rcases planned.bounded earlier mem with ⟨previous, isPrevious, upTo⟩
    have follows : previous ≤ candidate.offset := by simpa [isPrevious] using after
    exact upTo.trans follows
  case bounded =>
    intro other mem
    refine ⟨candidate.stop, rfl, ?_⟩
    rcases mem_append.mp mem with earlier | isNew
    · rcases planned.bounded other earlier with ⟨previous, isPrevious, upTo⟩
      have follows : previous ≤ candidate.offset := by simpa [isPrevious] using after
      omega
    · rw [mem_singleton.mp isNew]
  case runs => exact joined.1
  case covers =>
    intro position
    rw [joined.2 position, planned.covers position]
    simp only [mem_append, mem_singleton, or_and_right, exists_or, exists_eq_left]

theorem Planned.of_foldlM {candidates done : List (Candidate File)} {plan final : RunPlan}
    (planned : Planned data done plan) (ran : candidates.foldlM (planRun data) plan = .ok final) :
    Planned data (done ++ candidates) final := by
  induction candidates generalizing done plan with
  | nil =>
    rw [foldlM_nil, pure_ok] at ran
    rwa [append_nil, ← ran]
  | cons candidate rest ih =>
    rw [foldlM_cons, bind_ok] at ran
    rcases ran with ⟨next, first, later⟩
    have after := ih (planned.step first) later
    rwa [append_assoc, singleton_append] at after

theorem planned_of_planRuns {candidates : List (Candidate File)} {plan : RunPlan}
    (ran : planRuns candidates data = .ok plan) : Planned data candidates plan := by
  refine @Planned.of_foldlM _ _ _ _ [] _ _ ⟨?_, List.Pairwise.nil, ?_, ?_, ?_⟩ ran
  · exact fun _ mem => nomatch mem
  · exact fun _ mem => nomatch mem
  · exact fun _ mem => nomatch mem
  · simp

end Plan

variable {memory : Memory}

section Clear

variable [CommittedFile File] {size : ℕ} {extents : SortedMap ℕ ResidentDirtyData}
  {external : SortedMap ℕ (ExternalDirtyData File)}

theorem Fits.clearRun (fits : Fits size extents external) {run : ℕ × ℕ} (ordered : run.1 < run.2) :
    Changes (clearRun run) (ofMaps size extents external) (copiesIn run.1 run.2 extents)
      (ofMaps size (extents.cut run.1 run.2) (external.cut run.1 run.2))
      (ofMaps size extents external) :=
  (fits.removeResidentOverlaps ordered).then_ok
    (onData_apply ((fits.cutResident ordered).removeExternalOverlaps ordered))

def copiesInAll : List (ℕ × ℕ) → SortedMap ℕ ResidentDirtyData → ℕ
  | [], _ => 0
  | run :: rest, extents => copiesIn run.1 run.2 extents +
    copiesInAll rest (extents.cut run.1 run.2)

variable {runs : List (ℕ × ℕ)}

section

variable (fits : Fits size extents external) (ordered : ∀ run ∈ runs, run.1 < run.2)

include fits ordered

theorem Fits.cutAll : Fits size (extents.cutAll runs) (external.cutAll runs) := by
  induction runs generalizing extents external with
  | nil => exact fits
  | cons run rest ih =>
    exact ih (fits.clear (ordered run mem_cons_self)) fun other mem =>
      ordered other (mem_cons_of_mem _ mem)

theorem Fits.clearRuns_granted (granted : false ∉ memory.take (copiesInAll runs extents)) :
    runs.forM SparseData.clearRun (ofMaps size extents external, memory) =
      (.ok (), (ofMaps size (extents.cutAll runs) (external.cutAll runs),
        memory.drop (copiesInAll runs extents))) := by
  induction runs generalizing extents external memory with
  | nil => rfl
  | cons run rest ih =>
    have first := ordered run mem_cons_self
    rw [copiesInAll, take_add, mem_append, not_or] at granted
    have cleared := (fits.clearRun first).granted memory granted.1
    have later := ih (fits.clear first)
      (fun other mem => ordered other (mem_cons_of_mem _ mem)) granted.2
    change (SparseData.clearRun run >>= fun _ => rest.forM SparseData.clearRun) _ = _
    rw [bind_of_ok cleared, later, drop_drop, copiesInAll]
    rfl

/-- A refused copy stops before one of the runs. The runs before it have been cleared. -/
theorem Fits.clearRuns_refused (refused : false ∈ memory.take (copiesInAll runs extents)) :
    ∃ done later rest, runs = done ++ later ∧ copiesInAll later (extents.cutAll done) ≠ 0 ∧
      runs.forM SparseData.clearRun (ofMaps size extents external, memory) =
        (.error (.refused .outOfMemory),
          (ofMaps size (extents.cutAll done) (external.cutAll done), rest)) := by
  induction runs generalizing extents external memory with
  | nil => cases refused
  | cons run rest ih =>
    have first := ordered run mem_cons_self
    have some : copiesInAll (run :: rest) extents ≠ 0 := by
      intro none
      rw [none] at refused
      cases refused
    change ∃ done later left, _ ∧ _ ∧
      (SparseData.clearRun run >>= fun _ => rest.forM SparseData.clearRun) _ = _
    rw [copiesInAll, take_add, mem_append] at refused
    by_cases early : false ∈ memory.take (copiesIn run.1 run.2 extents)
    · rcases (fits.clearRun first).refused memory early with ⟨left, failed⟩
      exact ⟨[], run :: rest, left, rfl, some, bind_of_error failed⟩
    · have cleared := (fits.clearRun first).granted memory early
      rcases ih (fits.clear first) (fun other mem => ordered other (mem_cons_of_mem _ mem))
          (refused.resolve_left early) with ⟨done, later, left, split, copies, failed⟩
      refine ⟨run :: done, later, left, by rw [split]; rfl, copies, ?_⟩
      rw [bind_of_ok cleared, failed]
      rfl

end

end Clear

section Put

variable [CommittedFile File] {size : ℕ} {extents : SortedMap ℕ ResidentDirtyData}
  {external : SortedMap ℕ (ExternalDirtyData File)}

def Candidate.extent (candidate : Candidate File) : ℕ × ExternalDirtyData File :=
  (candidate.offset,
    { source := candidate.source
      sourceOffset := 0
      length := CommittedFile.logicalSize candidate.source
      throughSequence := candidate.throughSequence })

def withCandidates (candidates : List (Candidate File))
    (external : SortedMap ℕ (ExternalDirtyData File)) : SortedMap ℕ (ExternalDirtyData File) :=
  external.insertAll (candidates.map Candidate.extent)

/-- Candidates one behind the other, in gaps of both maps. -/
structure Insertable (size : ℕ) (extents : SortedMap ℕ ResidentDirtyData)
    (external : SortedMap ℕ (ExternalDirtyData File)) (candidates : List (Candidate File)) :
    Prop where
  nonempty : ∀ candidate ∈ candidates, candidate.offset < candidate.stop
  inside : ∀ candidate ∈ candidates, candidate.stop ≤ size
  ordered : candidates.Pairwise fun left right => left.stop ≤ right.offset
  residentFree : ∀ candidate ∈ candidates, ∀ other ∈ extents.pairs,
    ¬ SortedMap.Overlaps candidate.offset candidate.stop other
  externalFree : ∀ candidate ∈ candidates, ∀ other ∈ external.pairs,
    ¬ SortedMap.Overlaps candidate.offset candidate.stop other

theorem Fits.putCandidates (fits : Fits size extents external) {candidates : List (Candidate File)}
      (insertable : Insertable size extents external candidates) :
    candidates.forM putCandidate (ofMaps size extents external) =
        (.ok (), ofMaps size extents (withCandidates candidates external)) ∧
      Fits size extents (withCandidates candidates external) ∧
      ∀ position, (withCandidates candidates external).at? position =
        ((candidates.find? fun candidate =>
            candidate.offset ≤ position ∧ position < candidate.stop).map fun candidate =>
          ⟨candidate.source, position - candidate.offset, candidate.throughSequence⟩).or
        (external.at? position) := by
  induction candidates generalizing external with
  | nil => exact ⟨rfl, fits, fun position => rfl⟩
  | cons candidate rest ih =>
    have nonempty := insertable.nonempty candidate mem_cons_self
    have ordered := pairwise_cons.mp insertable.ordered
    have inside := insertable.inside candidate mem_cons_self
    have free := insertable.externalFree candidate mem_cons_self
    have small := fits.small
    have reaches : candidate.extent.1 < Extent.stop candidate.extent.1 candidate.extent.2 :=
      nonempty
    have absent : external.get? candidate.offset = none :=
      fits.external.get?_eq_none_of_free reaches free
    have inserted : Fits size extents (external.insert candidate.offset candidate.extent.2) := by
      refine fits.insertExternal ?_ inside (Nat.le_of_eq (Nat.zero_add _))
        (insertable.residentFree candidate mem_cons_self) free
      change 0 < CommittedFile.logicalSize candidate.source
      change candidate.offset < candidate.offset + _ at nonempty
      omega
    have put : putCandidate candidate (ofMaps size extents external) =
        (.ok (), ofMaps size extents (external.insert candidate.offset candidate.extent.2)) := by
      apply putExternal_ofMaps absent
      have weight := inserted.weight_le
      rw [weight_insert absent] at weight
      change _ + (_ + (candidate.offset + CommittedFile.logicalSize candidate.source -
        candidate.offset)) ≤ _ at weight
      change _ + CommittedFile.logicalSize candidate.source + _ < _
      omega
    have insertableRest : Insertable size extents
        (external.insert candidate.offset candidate.extent.2) rest := by
      constructor
      case nonempty =>
        exact fun other mem => insertable.nonempty other (mem_cons_of_mem _ mem)
      case inside =>
        exact fun other mem => insertable.inside other (mem_cons_of_mem _ mem)
      case ordered => exact ordered.2
      case residentFree =>
        exact fun other mem => insertable.residentFree other (mem_cons_of_mem _ mem)
      case externalFree =>
        intro other mem extent inMap
        rcases (fits.external.mem_insert_of_free reaches free).mp inMap with rfl | old
        · rintro ⟨_, overlaps⟩
          have after := ordered.1 other mem
          change other.offset < candidate.stop at overlaps
          omega
        · exact insertable.externalFree other (mem_cons_of_mem _ mem) extent old
    rcases ih inserted insertableRest with ⟨others, done, contents⟩
    refine ⟨?_, done, ?_⟩
    · change (putCandidate candidate >>= fun _ => rest.forM putCandidate) _ = _
      rw [bind_of_ok put, others]
      rfl
    · intro position
      have folded : withCandidates (candidate :: rest) external =
          withCandidates rest (external.insert candidate.offset candidate.extent.2) := rfl
      have atFirst : (external.insert candidate.offset candidate.extent.2).at? position =
          if candidate.offset ≤ position ∧ position < candidate.stop then
            some (Extent.read candidate.offset candidate.extent.2 position)
          else external.at? position :=
        fits.external.at?_insert reaches free
      rw [folded, contents position, atFirst, find?_cons]
      by_cases inFirst : candidate.offset ≤ position ∧ position < candidate.stop
      · -- a later candidate starts behind the first one
        have none : (rest.find? fun other =>
            other.offset ≤ position ∧ position < other.stop) = none := by
          rw [find?_eq_none]
          intro other mem
          have after := ordered.1 other mem
          simp only [decide_eq_true_eq]
          omega
        rw [none, if_pos inFirst, decide_eq_true inFirst]
        change some (Place.mk _ (0 + (position - candidate.offset)) _) = some (Place.mk _ _ _)
        rw [Nat.zero_add]
        rfl
      · rw [if_neg inFirst, decide_eq_false inFirst]

end Put

section Call

variable [CommittedFile File] {size : ℕ} {extents : SortedMap ℕ ResidentDirtyData}
  {external : SortedMap ℕ (ExternalDirtyData File)} {candidates : List (Candidate File)}
  {plan : RunPlan}

theorem Fits.insertable (fits : Fits size extents external)
    (planned : Planned (ofMaps size extents external) candidates plan) :
    Insertable size (extents.cutAll plan.runs) (external.cutAll plan.runs) candidates := by
  have gap : ∀ {α β : Type} [Extent α β] {map : SortedMap ℕ α}, map.Apart →
      ∀ candidate ∈ candidates, ∀ other ∈ (map.cutAll plan.runs).pairs,
        ¬ SortedMap.Overlaps candidate.offset candidate.stop other := by
    intro α β _ map apart candidate mem other inMap overlaps
    rcases overlaps with ⟨before, reaches⟩
    have nonempty := (planned.accepted candidate mem).nonempty
    have otherNonempty := (apart.cutAll planned.runs).nonempty other inMap
    -- a position that the candidate and the extent share
    have shared : SortedMap.Covers other (max candidate.offset other.1) := by
      constructor <;> omega
    have found := (apart.cutAll planned.runs).at?_of_mem inMap shared
    rw [apart.at?_cutAll planned.runs, if_pos] at found
    · cases found
    · exact (planned.covers _).mpr ⟨candidate, mem, by omega, by omega⟩
  constructor
  case nonempty => exact fun candidate mem => (planned.accepted candidate mem).nonempty
  case inside => exact fun candidate mem => (planned.accepted candidate mem).inside
  case ordered => exact planned.ordered
  case residentFree => exact gap fits.resident
  case externalFree => exact gap fits.external

theorem externalizeMany_of_error {failure : Failure} {data : SparseData File} (memory : Memory)
    (some : candidates ≠ []) (failed : planRuns (sortCandidates candidates) data = .error failure) :
    externalizeMany candidates (data, memory) = (.error failure, (data, memory)) := by
  rw [externalizeMany, if_neg (by simpa using some)]
  apply bind_of_error
  rw [settle_apply, failed]

theorem externalizeMany_of_planned {data : SparseData File} (some : candidates ≠ [])
    (ran : planRuns (sortCandidates candidates) data = .ok plan) (memory : Memory) :
    externalizeMany candidates (data, memory) = (plan.runs.forM clearRun >>= fun _ =>
      onData ((sortCandidates candidates).forM putCandidate)) (data, memory) := by
  rw [externalizeMany, if_neg (by simpa using some)]
  apply bind_of_ok
  rw [settle_apply, ran]

theorem Fits.externalizeMany (fits : Fits size extents external) (some : candidates ≠ [])
    (ran : planRuns (sortCandidates candidates) (ofMaps size extents external) = .ok plan)
    (granted : false ∉ memory.take (copiesInAll plan.runs extents)) :
    externalizeMany candidates (ofMaps size extents external, memory) =
      (.ok (), (ofMaps size (extents.cutAll plan.runs)
        (withCandidates (sortCandidates candidates) (external.cutAll plan.runs)),
          memory.drop (copiesInAll plan.runs extents))) := by
  have planned := planned_of_planRuns ran
  have put := ((fits.cutAll planned.runs).putCandidates (fits.insertable planned)).1
  rw [externalizeMany_of_planned some ran,
    bind_of_ok (fits.clearRuns_granted planned.runs granted)]
  exact onData_apply put _

end Call

end SparseData

end Fastdup.Posix
