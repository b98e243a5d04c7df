import Fastdup.Posix.SparseData.Layout

/-!
# Changes of dirty data

What each change makes of data whose extents lie apart, as cuts and insertions of the two maps, and
what it leaves when a copy is refused.
-/

namespace Fastdup.Posix

open Library Checked Attempt List SortedMap Option Nat SortedMap.Apart

namespace SparseData

variable {File : Type}

/-- A change of the data that makes copies on its way: with all of them it reaches `result`, and
without one of them it stops at `broken`. -/
structure Changes (program : Attempt (SparseData File × Memory) Failure Unit)
    (data : SparseData File) (copies : ℕ) (result broken : SparseData File) : Prop where
  granted : ∀ memory : Memory, false ∉ memory.take copies →
    program (data, memory) = (.ok (), (result, memory.drop copies))
  refused : ∀ memory : Memory, false ∈ memory.take copies →
    ∃ rest, program (data, memory) = (.error (.refused .outOfMemory), (broken, rest))

variable {data : SparseData File} {extent : ExternalDirtyData File}

theorem onData_apply {α : Type} {program : Attempt (SparseData File) Failure α}
    {result : SparseData File} {outcome : Except Failure α}
    (ran : program data = (outcome, result)) (memory : Memory) :
    onData program (data, memory) = (outcome, (result, memory)) := by
  rw [onData, within_of_eq ran]

namespace Changes

variable {α : Type} {program : Attempt (SparseData File × Memory) Failure Unit}
  {middle result broken : SparseData File} {copies : ℕ}
  {next : α → Attempt (SparseData File × Memory) Failure Unit} {value : α}

theorem after_ok {first : Attempt (SparseData File × Memory) Failure α}
    (ran : ∀ memory, first (data, memory) = (.ok value, (middle, memory)))
    (later : Changes (next value) middle copies result broken) :
    Changes (first >>= next) data copies result broken where
  granted := by
    intro memory granted
    rw [bind_of_ok (ran memory), later.granted memory granted]
  refused := by
    intro memory refused
    rcases later.refused memory refused with ⟨rest, failed⟩
    exact ⟨rest, by rw [bind_of_ok (ran memory), failed]⟩

theorem of_settle {check : Except Failure α} (passes : check = .ok value)
    (later : Changes (next value) data copies result broken) :
    Changes (settle (fun _ => check) >>= next) data copies result broken :=
  .after_ok (fun _ => by rw [settle_apply, passes]) later

theorem of_assert {condition : Prop} [Decidable condition]
    {next : Unit → Attempt (SparseData File × Memory) Failure Unit} (holds : condition)
    (later : Changes (next ()) data copies result broken) :
    Changes (settle (fun _ => assertThat condition) >>= next) data copies result broken :=
  .of_settle (by rw [assertThat, require, if_neg (not_not.mpr holds)]) later

theorem then_ok {next : Unit → Attempt (SparseData File × Memory) Failure Unit}
    (first : Changes program data copies middle broken)
    (ran : ∀ memory, next () (middle, memory) = (.ok (), (result, memory))) :
    Changes (program >>= next) data copies result broken where
  granted := by
    intro memory granted
    rw [bind_of_ok (first.granted memory granted), ran]
  refused := by
    intro memory refused
    rcases first.refused memory refused with ⟨rest, failed⟩
    exact ⟨rest, bind_of_error failed⟩

theorem of_plan {plan : SparseData File → Attempt Memory Failure α}
    (allocates : Allocates (plan data) copies value)
    (ran : ∀ memory, next value (data, memory) = (.ok (), (result, memory))) :
    Changes (onMemory plan >>= next) data copies result data where
  granted := by
    intro memory granted
    have planned : onMemory plan (data, memory) = (.ok value, (data, memory.drop copies)) := by
      rw [onMemory, within_of_eq (allocates.granted memory granted)]
    rw [bind_of_ok planned, ran]
  refused := by
    intro memory refused
    rcases allocates.refused memory refused with ⟨rest, failed⟩
    have planned : onMemory plan (data, memory) =
        (.error (.refused .outOfMemory), (data, rest)) := by
      rw [onMemory, within_of_eq failed]
    exact ⟨rest, bind_of_error planned⟩

end Changes

section Overlaps

variable [CommittedFile File] {size start stop : ℕ} {extents : SortedMap ℕ ResidentDirtyData}
  {external : SortedMap ℕ (ExternalDirtyData File)}

/-- How many copies a clearing of the range makes. -/
def copiesIn (start stop : ℕ) (extents : SortedMap ℕ ResidentDirtyData) : ℕ :=
  ((extents.overlapping start stop).map (copiesOf start stop)).sum

omit [CommittedFile File] in
theorem filter_candidates (apart : extents.Apart) (ordered : start < stop) :
    (((extents.floor? start).toList ++ extents.between start stop).filter fun extent =>
      SortedMap.Overlaps start stop extent) = extents.overlapping start stop := by
  rw [filter_append, overlapping]
  congr 1
  · apply filter_congr
    intro extent mem
    rcases floor?_eq_some_iff.mp (mem_toList.mp mem) with ⟨_, upTo, _⟩
    rw [decide_eq_decide, SortedMap.Overlaps]
    exact and_iff_right (by omega)
  · rw [filter_eq_self]
    intro extent mem
    rcases mem_between.mp mem with ⟨inMap, after, before⟩
    have nonempty := apart.nonempty extent inMap
    exact decide_eq_true ⟨before, by omega⟩

section

variable (fits : Fits size extents external)

include fits

variable (ordered : start < stop)

include ordered

theorem Fits.allocates_planOverlaps :
    Allocates (planOverlaps start stop (ofMaps size extents external)) (copiesIn start stop extents)
      ⟨(extents.overlapping start stop).map Prod.fst, extents.fragments start stop⟩ := by
  have small := fits.small
  have planned := @Allocates.foldlM _ _ (planOverlap start stop)
    (fun extent => if SortedMap.Overlaps start stop extent then copiesOf start stop extent else 0)
    (OverlapPlan.extended start stop)
    ((extents.floor? start).toList ++ extents.between start stop) (by
      intro plan extent mem
      apply allocates_planOverlap
      have inMap : extent ∈ extents.pairs := by
        rcases mem_append.mp mem with first | later
        · exact (floor?_eq_some_iff.mp (mem_toList.mp first)).1
        · exact (mem_between.mp later).1
      have inside := fits.residentInside extent inMap
      omega) ⟨[], []⟩
  have counted : ∀ pairs : List (ℕ × ResidentDirtyData), (pairs.map fun extent =>
        if SortedMap.Overlaps start stop extent then copiesOf start stop extent else 0).sum =
      ((pairs.filter fun extent => SortedMap.Overlaps start stop extent).map
        (copiesOf start stop)).sum := by
    intro pairs
    induction pairs with
    | nil => rfl
    | cons pair rest ih =>
      rw [map_cons, sum_cons, filter_cons, ih]
      by_cases overlaps : SortedMap.Overlaps start stop pair
      · simp [overlaps]
      · simp [overlaps]
  rw [counted, foldl_extended, filter_candidates fits.resident ordered, nil_append,
    nil_append] at planned
  exact planned

theorem Fits.applyPlan_cut :
    applyPlan ⟨(extents.overlapping start stop).map Prod.fst, extents.fragments start stop⟩
        (ofMaps size extents external) =
      (.ok (), ofMaps size (extents.cut start stop) external) := by
  have small := fits.small
  have weight := fits.weight_le
  refine forM_cut (fun map => ofMaps size map external) ?_ ?_ fits.resident ordered
    (le_refl _)
  · intro map key extent found
    exact takeResident_ofMaps found
  · intro map pair absent room
    apply putResident_ofMaps absent
    change map.weight + (pair.1 + pair.2.length - pair.1) ≤ _ at room
    omega

theorem Fits.removeResidentOverlaps :
    Changes (removeResidentOverlaps start stop) (ofMaps size extents external)
      (copiesIn start stop extents) (ofMaps size (extents.cut start stop) external)
      (ofMaps size extents external) :=
  .of_plan (fits.allocates_planOverlaps ordered) (onData_apply (fits.applyPlan_cut ordered))

omit ordered in
theorem Fits.externalOverlappingStarts :
    externalOverlappingStarts start stop external = (external.overlapping start stop).map
      Prod.fst := by
  have small := fits.small
  rw [SparseData.externalOverlappingStarts, overlapping, map_append]
  congr 2
  apply filter_congr
  intro extent mem
  rcases floor?_eq_some_iff.mp (mem_toList.mp mem) with ⟨inMap, _, _⟩
  have stops := fits.externalInside extent inMap
  rw [decide_eq_decide]
  change start < min (extent.1 + extent.2.length) (2 ^ 64 - 1) ↔ start < extent.1 + extent.2.length
  omega

theorem Fits.planExternal : planExternal start stop ((external.overlapping start stop).map Prod.fst)
        (ofMaps size extents external) = .ok (external.fragments start stop) := by
  have small := fits.small
  have one : ∀ extent ∈ external.overlapping start stop, (do
        let external ← expect ((ofMaps size extents external).externalExtents.get? extent.1)
        externalFragments start stop extent.1 external) =
      .ok (pieces start stop extent) := by
    intro extent mem
    rcases (fits.external.mem_overlapping ordered).mp mem with ⟨inMap, before, reaches⟩
    have found : external.get? extent.1 = some extent.2 := get?_of_mem inMap
    have stops := fits.externalInside extent inMap
    have sources := fits.sources extent inMap
    have sourceSmall := CommittedFile.logicalSize_lt extent.2.source
    change (expect (external.get? extent.1) >>= _) = _
    rw [found]
    change externalFragments start stop extent.1 extent.2 = _
    rw [externalFragments, checkedAdd_of_lt (by omega), ok_bind, pieces]
    change _ = Except.ok (_ ++ if stop < extent.1 + extent.2.length then _ else [])
    by_cases right : stop < extent.1 + extent.2.length
    · rw [if_pos right, if_pos right, checkedAdd_of_lt (by omega), ok_bind]
      rfl
    · rw [if_neg right, if_neg right, append_nil]
      rfl
  have all : ((external.overlapping start stop).map Prod.fst).mapM (fun extentStart => do
        let external ← expect ((ofMaps size extents external).externalExtents.get? extentStart)
        externalFragments start stop extentStart external) =
      .ok ((external.overlapping start stop).map (pieces start stop)) := by
    rw [mapM_ok, forall₂_map_left_iff, forall₂_map_right_iff, forall₂_same]
    exact one
  rw [SparseData.planExternal, all, ok_bind, fragments, List.flatMap]
  rfl

theorem Fits.removeExternalOverlaps :
    removeExternalOverlaps start stop (ofMaps size extents external) =
      (.ok (), ofMaps size extents (external.cut start stop)) := by
  have small := fits.small
  have weight := fits.weight_le
  have listed : SparseData.externalOverlappingStarts start stop
      (ofMaps size extents external).externalExtents =
        (external.overlapping start stop).map Prod.fst :=
    fits.externalOverlappingStarts
  rw [SparseData.removeExternalOverlaps, bind_of_ok (read_apply _ _), listed]
  have planned : settle
      (SparseData.planExternal start stop ((external.overlapping start stop).map Prod.fst))
      (ofMaps size extents external) =
        (.ok (external.fragments start stop), ofMaps size extents external) := by
    rw [settle_apply, fits.planExternal ordered]
  rw [bind_of_ok planned]
  refine forM_cut (fun map => ofMaps size extents map) ?_ ?_ fits.external ordered
    (le_refl _)
  · intro map key extent found
    exact takeExternal_ofMaps found
  · intro map pair absent room
    apply putExternal_ofMaps absent
    change map.weight + (pair.1 + pair.2.length - pair.1) ≤ _ at room
    omega

end

section

variable (fits : Fits size extents external)

include fits

theorem Fits.clear (ordered : start < stop) :
    Fits size (extents.cut start stop) (external.cut start stop) :=
  (fits.cutExternal ordered).cutResident ordered

variable {offset : ℕ} {payload : MutationPayload}

theorem Fits.written {sequence : ℕ} (nonempty : 0 < payload.length)
    (small : offset + payload.length < 2 ^ 64) : Fits (max size (offset + payload.length))
      ((extents.cut offset (offset + payload.length)).insert offset ⟨payload, sequence⟩)
      (external.cut offset (offset + payload.length)) := by
  have ordered : offset < offset + payload.length := by omega
  have sizeSmall := fits.small
  have cleared := (fits.clear ordered).grow (le_max_left size (offset + payload.length)) (by omega)
  refine cleared.insertResident ?_ ?_ ?_ ?_
  · exact nonempty
  · exact le_max_right size (offset + payload.length)
  · exact free_cut fits.resident ordered
  · exact free_cut fits.external ordered

theorem Fits.finish {put : Attempt (SparseData File) Failure Unit} {stop : ℕ} {smaller : ℕ}
    (puts : put data = (.ok (), ofMaps smaller extents external)) (grows : max smaller stop = size)
    (first second : ℕ) (memory : Memory) : (do
      onData put
      onData (Attempt.change fun data => { data with logicalSize := max data.logicalSize stop })
      onData (SparseData.assertValidAround first)
      onData (SparseData.assertValidAround second)) (data, memory) =
    (.ok (), (ofMaps size extents external, memory)) := by
  have grown : Attempt.change
      (fun data : SparseData File => { data with logicalSize := max data.logicalSize stop })
      (ofMaps smaller extents external) = ((.ok (), ofMaps size extents external) :
        Except Failure Unit × SparseData File) := by
    rw [change_apply, ← grows]
    rfl
  rw [bind_of_ok (onData_apply puts memory), bind_of_ok (onData_apply grown memory),
    bind_of_ok (onData_apply (fits.assertValidAround first) memory),
    onData_apply (fits.assertValidAround second) memory]

theorem Fits.write {sequence : ℕ} (nonempty : 0 < payload.length)
    (small : offset + payload.length < 2 ^ 64) :
    Changes (write offset payload sequence) (ofMaps size extents external)
      (copiesIn offset (offset + payload.length) extents)
      (ofMaps (max size (offset + payload.length))
        ((extents.cut offset (offset + payload.length)).insert offset ⟨payload, sequence⟩)
        (external.cut offset (offset + payload.length)))
      (ofMaps size extents (external.cut offset (offset + payload.length))) := by
  have ordered : offset < offset + payload.length := by omega
  have done := @Fits.written _ _ _ _ _ fits _ _ sequence nonempty small
  have absent : (extents.cut offset (offset + payload.length)).get? offset = none :=
    @get?_eq_none_of_free _ _ _ _ _ ⟨payload, sequence⟩
      (fits.resident.cut ordered) ordered (free_cut fits.resident ordered)
  have puts : putResident offset ⟨payload, sequence⟩
      (ofMaps size (extents.cut offset (offset + payload.length))
        (external.cut offset (offset + payload.length))) =
      (.ok (), ofMaps size
        ((extents.cut offset (offset + payload.length)).insert offset ⟨payload, sequence⟩)
        (external.cut offset (offset + payload.length))) := by
    apply putResident_ofMaps absent
    have weight := done.weight_le
    rw [weight_insert absent] at weight
    change _ + (offset + payload.length - offset) + _ ≤ _ at weight
    change _ + payload.length + _ < _
    have sizeSmall := fits.small
    omega
  have removed := (fits.cutExternal ordered).removeResidentOverlaps ordered
  refine .of_assert nonempty (.of_settle (checkedAdd_of_lt small) ?_)
  exact .after_ok (onData_apply (fits.removeExternalOverlaps ordered))
    (removed.then_ok (done.finish puts rfl _ _))

section

variable (nonempty : 0 < extent.length) (small : offset + extent.length < 2 ^ 64)
  (inside : extent.sourceOffset + extent.length ≤ CommittedFile.logicalSize extent.source)

include nonempty small inside

theorem Fits.writtenExternal :
    Fits (max size (offset + extent.length)) (extents.cut offset (offset + extent.length))
      ((external.cut offset (offset + extent.length)).insert offset extent) := by
  have ordered : offset < offset + extent.length := by omega
  have sizeSmall := fits.small
  have cleared := (fits.clear ordered).grow (le_max_left size (offset + extent.length)) (by omega)
  refine cleared.insertExternal nonempty ?_ inside ?_ ?_
  · exact le_max_right size (offset + extent.length)
  · exact free_cut fits.resident ordered
  · exact free_cut fits.external ordered

theorem Fits.placeExternal :
    Changes (placeExternal offset (offset + extent.length) extent) (ofMaps size extents external)
      (copiesIn offset (offset + extent.length) extents)
      (ofMaps (max size (offset + extent.length)) (extents.cut offset (offset + extent.length))
        ((external.cut offset (offset + extent.length)).insert offset extent))
      (ofMaps size extents external) := by
  have ordered : offset < offset + extent.length := by omega
  have done := fits.writtenExternal nonempty small inside
  have absent : (external.cut offset (offset + extent.length)).get? offset = none :=
    (fits.external.cut ordered).get?_eq_none_of_free ordered (free_cut fits.external ordered)
  have puts : putExternal offset extent (ofMaps size (extents.cut offset (offset + extent.length))
        (external.cut offset (offset + extent.length))) =
      (.ok (), ofMaps size (extents.cut offset (offset + extent.length))
        ((external.cut offset (offset + extent.length)).insert offset extent)) := by
    apply putExternal_ofMaps absent
    have weight := done.weight_le
    rw [weight_insert absent] at weight
    change _ + (_ + (offset + extent.length - offset)) ≤ _ at weight
    have sizeSmall := fits.small
    omega
  have removed : ∀ memory, onData
      (SparseData.removeExternalOverlaps offset (offset + extent.length))
      (ofMaps size (extents.cut offset (offset + extent.length)) external, memory) =
      (.ok (), (ofMaps size (extents.cut offset (offset + extent.length))
        (external.cut offset (offset + extent.length)), memory)) :=
    onData_apply ((fits.cutResident ordered).removeExternalOverlaps ordered)
  refine (fits.removeResidentOverlaps ordered).then_ok fun memory => ?_
  rw [bind_of_ok (removed memory), done.finish puts rfl]

end

theorem Fits.punch (ordered : start < stop) :
    Changes (punch start stop) (ofMaps size extents external) (copiesIn start stop extents)
      (ofMaps size (extents.cut start stop) (external.cut start stop))
      (ofMaps size extents external) := by
  have cleared := fits.clear ordered
  have removed : ∀ memory, onData (SparseData.removeExternalOverlaps start stop)
      (ofMaps size (extents.cut start stop) external, memory) =
      (.ok (), (ofMaps size (extents.cut start stop) (external.cut start stop), memory)) :=
    onData_apply ((fits.cutResident ordered).removeExternalOverlaps ordered)
  refine .of_assert ordered.le ?_
  rw [if_neg ordered.ne]
  refine .then_ok (fits.removeResidentOverlaps ordered) (fun memory => ?_)
  rw [bind_of_ok (removed memory),
    bind_of_ok (onData_apply (cleared.assertValidAround start) memory),
    onData_apply (cleared.assertValidAround stop) memory]

end

end Overlaps

section Truncate

variable {size length : ℕ} {extents : SortedMap ℕ ResidentDirtyData}

/-- Whether a truncation copies the extent it cuts. -/
def crossingCopies (length : ℕ) (extents : SortedMap ℕ ResidentDirtyData) : ℕ :=
  (extents.crossing? length).elim 0 fun extent => extent.2.bytes.copies 0 (length - extent.1)

variable {external : SortedMap ℕ (ExternalDirtyData File)}

theorem allocates_planCrossing (apart : extents.Apart) :
    Allocates (planCrossing length (ofMaps size extents external)) (crossingCopies length extents)
      (extents.crossingPieces length) := by
  rw [planCrossing, crossingCopies, crossingPieces,
    show (ofMaps size extents external).extents = extents from rfl]
  cases found : extents.crossing? length with
  | none => exact .pure _
  | some extent =>
    rcases apart.crossing?_eq_some_iff.mp found with ⟨_, before, reaches⟩
    change length < extent.1 + extent.2.length at reaches
    have retained : Allocates (extent.2.retainedFragment 0 (length - extent.1)) _ _ :=
      extent.2.allocates_retainedFragment (zero_le _) (by omega)
    exact retained.map fun fragment => [(extent.1, fragment)]

variable [CommittedFile File]

theorem Fits.applyPlan_truncate (fits : Fits size extents external) (shrinks : length < size) :
    applyPlan
        ⟨(extents.atLeast length).map Prod.fst ++ (extents.crossingPieces length).map Prod.fst,
          extents.crossingPieces length⟩ (ofMaps size extents external) =
      (.ok (), ofMaps size (extents.cut length size) external) := by
  have small := fits.small
  have weight := fits.weight_le
  refine forM_truncate (fun map => ofMaps size map external) fits.resident
    fits.residentInside shrinks ?_ ?_
  · intro map key extent found
    exact takeResident_ofMaps found
  · intro map pair absent room
    apply putResident_ofMaps absent
    change map.weight + (pair.1 + pair.2.length - pair.1) ≤ _ at room
    omega

theorem Fits.truncated (fits : Fits size extents external) (shrinks : length < size) :
    Fits length (extents.cut length size) (external.cut length size) where
  resident := fits.resident.cut shrinks
  external := fits.external.cut shrinks
  separate := (fits.clear shrinks).separate
  residentInside := by
    intro extent mem
    rcases fits.resident.of_mem_cut shrinks mem with ⟨old, oldMem, nonempty, place, _⟩
    have stops : Extent.stop old.1 old.2 ≤ size := fits.residentInside old oldMem
    change Extent.stop extent.1 extent.2 ≤ length
    omega
  externalInside := by
    intro extent mem
    rcases fits.external.of_mem_cut shrinks mem with ⟨old, oldMem, nonempty, place, _⟩
    have stops : Extent.stop old.1 old.2 ≤ size := fits.externalInside old oldMem
    change Extent.stop extent.1 extent.2 ≤ length
    omega
  sources := (fits.clear shrinks).sources
  small := by
    have small := fits.small
    omega

omit [CommittedFile File] in
theorem truncate_of_le (grows : size ≤ length) (memory : Memory) :
    truncate length (ofMaps size extents external, memory) =
      (.ok (), (ofMaps length extents external, memory)) := by
  change (if size ≤ length then _ else _ : Attempt _ _ _) _ = _
  rw [if_pos grows]
  rfl

theorem Fits.truncate (fits : Fits size extents external) (shrinks : length < size) :
    Changes (truncate length) (ofMaps size extents external) (crossingCopies length extents)
      (ofMaps length (extents.cut length size) (external.cut length size))
      (ofMaps size extents (external.cut length size)) := by
  have done := fits.truncated shrinks
  have cutFits := fits.cutExternal shrinks
  have resized : Attempt.change (fun data : SparseData File => { data with logicalSize := length })
      (ofMaps size (extents.cut length size) (external.cut length size)) =
      ((.ok (), ofMaps length (extents.cut length size) (external.cut length size)) :
        Except Failure Unit × SparseData File) := rfl
  have resident : Changes (truncateResident length)
      (ofMaps size extents (external.cut length size)) (crossingCopies length extents)
      (ofMaps size (extents.cut length size) (external.cut length size))
      (ofMaps size extents (external.cut length size)) := by
    refine .of_plan (allocates_planCrossing fits.resident) fun memory => ?_
    exact onData_apply (cutFits.applyPlan_truncate shrinks) memory
  refine .after_ok (fun memory => Attempt.read_apply _ _) ?_
  rw [if_neg (Nat.not_le_of_lt shrinks)]
  refine .after_ok (onData_apply (fits.removeExternalOverlaps shrinks)) (resident.then_ok ?_)
  intro memory
  rw [Attempt.bind_of_ok (onData_apply resized memory),
    onData_apply (done.assertValidAround length) memory]

end Truncate

end SparseData

end Fastdup.Posix
