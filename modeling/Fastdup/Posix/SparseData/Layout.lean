import Fastdup.Posix.SparseData

/-!
# The layout of dirty data

While the extents of the two maps lie apart and the counters are the sums of their lengths, no
assertion of a change fails: every change cuts a range out of one map or the other. What is left to
fail is a copy of a fragment. `Allocates` counts the copies a step makes; the step fails when one of
them is refused, and returns its value otherwise.
-/

namespace Fastdup.Posix

open Library Checked SortedMap Attempt Finset List Option SparseData OverlapPlan

/-- A step that returns a value if its allocations are granted, and runs out of memory if not. -/
structure Allocates {α : Type} (program : Attempt Memory Failure α) (copies : ℕ) (value : α) :
    Prop where
  granted : ∀ memory : Memory, false ∉ memory.take copies →
    program memory = (.ok value, memory.drop copies)
  refused : ∀ memory : Memory, false ∈ memory.take copies →
    ∃ rest, program memory = (.error (.refused .outOfMemory), rest)

namespace Allocates

variable {α β : Type}

theorem pure (value : α) : Allocates (Pure.pure value) 0 value where
  granted := fun _ _ => rfl
  refused := fun _ refused => nomatch refused

variable {program : Attempt Memory Failure α}

theorem bind {next : α → Attempt Memory Failure β} {first second : ℕ} {value : α} {result : β}
    (allocates : Allocates program first value) (later : Allocates (next value) second result) :
    Allocates (program >>= next) (first + second) result where
  granted := by
    intro memory granted
    rw [take_add, mem_append, not_or] at granted
    rw [bind_of_ok (allocates.granted memory granted.1), later.granted _ granted.2, drop_drop]
  refused := by
    intro memory refused
    rw [take_add, mem_append] at refused
    by_cases early : false ∈ memory.take first
    · rcases allocates.refused memory early with ⟨rest, failed⟩
      exact ⟨rest, bind_of_error failed⟩
    · rcases later.refused _ (refused.resolve_left early) with ⟨rest, failed⟩
      exact ⟨rest, by rw [bind_of_ok (allocates.granted memory early), failed]⟩

theorem map {copies : ℕ} {value : α} (transform : α → β)
    (allocates : Allocates program copies value) :
    Allocates (program >>= fun value => Pure.pure (transform value)) copies (transform value) := by
  have mapped : Allocates (program >>= fun value => Pure.pure (transform value)) (copies + 0)
      (transform value) := allocates.bind (.pure (transform value))
  exact mapped

theorem assertThat {condition : Prop} [Decidable condition] (holds : condition)
    {next : Unit → Attempt Memory Failure β} {copies : ℕ} {result : β}
    (later : Allocates (next ()) copies result) :
    Allocates (settle (fun _ => assertThat condition) >>= next) copies result := by
  have passes : Allocates (settle fun _ => Posix.assertThat condition) 0 () := by
    constructor
    · intro memory _
      rw [settle_apply, Posix.assertThat, require, if_neg (not_not.mpr holds)]
      rfl
    · intro memory refused
      cases refused
  rw [← Nat.zero_add copies]
  exact passes.bind later

theorem tryCopyFromSlice (bytes : Bytes) :
    Allocates (MutationPayload.tryCopyFromSlice bytes) 1 (.fromOwnedBytes bytes) where
  granted := by
    intro memory granted
    rcases memory with _ | ⟨_ | _, rest⟩
    · rfl
    · simp at granted
    · rfl
  refused := by
    intro memory refused
    rcases memory with _ | ⟨_ | _, rest⟩
    · simp at refused
    · exact ⟨rest, rfl⟩
    · simp at refused

theorem foldlM {step : β → α → Attempt Memory Failure β} {copies : α → ℕ} {next : β → α → β}
    {items : List α} (steps : ∀ value, ∀ item ∈ items,
      Allocates (step value item) (copies item) (next value item)) (start : β) :
    Allocates (items.foldlM step start) (items.map copies).sum (items.foldl next start) := by
  induction items generalizing start with
  | nil => exact .pure start
  | cons item rest ih =>
    exact (steps start item mem_cons_self).bind
      (ih (fun value other mem => steps value other (mem_cons_of_mem _ mem)) _)

end Allocates

/-- A fragment that is not shared is copied. -/
def MutationPayload.copies (payload : MutationPayload) (start stop : ℕ) : ℕ :=
  if payload.Shares start stop then 0 else 1

variable {start stop : ℕ}

theorem MutationPayload.allocates_retainedFragment (payload : MutationPayload)
    (ordered : start ≤ stop) (inside : stop ≤ payload.length) :
    Allocates (payload.retainedFragment start stop) (payload.copies start stop)
      (payload.fragment start stop) := by
  refine .assertThat ordered (.assertThat inside ?_)
  rw [copies, fragment]
  split
  · exact .pure _
  · exact .tryCopyFromSlice _

theorem ResidentDirtyData.allocates_retainedFragment (extent : ResidentDirtyData)
    (ordered : start ≤ stop) (inside : stop ≤ extent.length) :
    Allocates (extent.retainedFragment start stop) (extent.bytes.copies start stop)
      (extent.fragment start stop) := by
  have retained := extent.bytes.allocates_retainedFragment ordered inside
  exact retained.map fun bytes => ResidentDirtyData.mk bytes extent.mutationSequence

def copiesOf (start stop : ℕ) (extent : ℕ × ResidentDirtyData) : ℕ :=
  (if extent.1 < start then extent.2.bytes.copies 0 (start - extent.1) else 0) +
    if stop < extent.1 + extent.2.length then
      extent.2.bytes.copies (stop - extent.1) extent.2.length
    else 0

variable {extent : ℕ × ResidentDirtyData}

theorem allocates_planLeft {start : ℕ} (reaches : start < extent.1 + extent.2.length) :
    Allocates (planLeft start extent)
      (if extent.1 < start then extent.2.bytes.copies 0 (start - extent.1) else 0)
      (if extent.1 < start then [(extent.1, Extent.upTo extent.1 extent.2 start)] else []) := by
  rw [planLeft]
  split
  · have retained : Allocates (extent.2.retainedFragment 0 (start - extent.1)) _ _ :=
      extent.2.allocates_retainedFragment (Nat.zero_le _) (by omega)
    exact retained.map fun fragment => [(extent.1, fragment)]
  · exact .pure _

theorem allocates_planRight {stop : ℕ} (before : extent.1 < stop) :
    Allocates (planRight stop extent) (if stop < extent.1 + extent.2.length then
        extent.2.bytes.copies (stop - extent.1) extent.2.length else 0)
      (if stop < Extent.stop extent.1 extent.2 then
        [(stop, Extent.onward extent.1 extent.2 stop)] else []) := by
  rw [planRight]
  change Allocates _ _ (if stop < extent.1 + extent.2.length then _ else _)
  split
  · have retained : Allocates (extent.2.retainedFragment (stop - extent.1) extent.2.length) _ _ :=
      extent.2.allocates_retainedFragment (by omega) (Nat.le_refl _)
    exact retained.map fun fragment => [(stop, fragment)]
  · exact .pure _

def OverlapPlan.extended (start stop : ℕ) (plan : OverlapPlan) (extent : ℕ × ResidentDirtyData) :
    OverlapPlan :=
  if SortedMap.Overlaps start stop extent then
    ⟨plan.overlapping ++ [extent.1], plan.fragments ++ SortedMap.pieces start stop extent⟩
  else plan

theorem allocates_planOverlap (plan : OverlapPlan) (small : extent.1 + extent.2.length < 2 ^ 64) :
    Allocates (planOverlap start stop plan extent)
      (if SortedMap.Overlaps start stop extent then copiesOf start stop extent else 0)
      (plan.extended start stop extent) := by
  refine .assertThat small ?_
  rw [extended]
  by_cases overlaps : SortedMap.Overlaps start stop extent
  · have misses : ¬ (extent.1 + extent.2.length ≤ start ∨ stop ≤ extent.1) := by
      rcases overlaps with ⟨before, reaches⟩
      change start < extent.1 + extent.2.length at reaches
      omega
    rw [if_neg misses, if_pos overlaps, if_pos overlaps]
    have left := allocates_planLeft overlaps.2
    have right := allocates_planRight overlaps.1
    refine left.bind ?_
    exact right.map fun right =>
      mk (plan.overlapping ++ [extent.1]) (plan.fragments ++ (_ ++ right))
  · have misses : extent.1 + extent.2.length ≤ start ∨ stop ≤ extent.1 := by
      change ¬ (_ ∧ start < extent.1 + extent.2.length) at overlaps
      omega
    rw [if_pos misses, if_neg overlaps, if_neg overlaps]
    exact .pure _

theorem foldl_extended {extents : List (ℕ × ResidentDirtyData)} (plan : OverlapPlan) :
    extents.foldl (extended start stop) plan = ⟨plan.overlapping ++
          (extents.filter fun extent => SortedMap.Overlaps start stop extent).map Prod.fst,
        plan.fragments ++ (extents.filter fun extent =>
          SortedMap.Overlaps start stop extent).flatMap (pieces start stop)⟩ := by
  induction extents generalizing plan with
  | nil => simp
  | cons extent rest ih =>
    rw [List.foldl_cons, ih, extended, List.filter_cons]
    by_cases overlaps : SortedMap.Overlaps start stop extent
    · simp [overlaps]
    · simp [overlaps]

namespace SparseData

variable {File : Type}

/-- The data of two maps, with the counters that belong to them. -/
def ofMaps (size : ℕ) (extents : SortedMap ℕ ResidentDirtyData)
    (externalExtents : SortedMap ℕ (ExternalDirtyData File)) : SparseData File where
  logicalSize := size
  allocatedBytes := extents.weight + externalExtents.weight
  residentBytes := extents.weight
  extents := extents
  externalExtents := externalExtents

/-- Extents that lie apart and inside the data, in files that have their bytes. -/
structure Fits [CommittedFile File] (size : ℕ) (extents : SortedMap ℕ ResidentDirtyData)
    (externalExtents : SortedMap ℕ (ExternalDirtyData File)) : Prop where
  resident : extents.Apart
  external : externalExtents.Apart
  separate : ∀ extent ∈ extents.pairs, ∀ other ∈ externalExtents.pairs,
    ¬ SortedMap.Overlaps extent.1 (extent.1 + extent.2.length) other
  residentInside : ∀ extent ∈ extents.pairs, extent.1 + extent.2.length ≤ size
  externalInside : ∀ extent ∈ externalExtents.pairs, extent.1 + extent.2.length ≤ size
  sources : ∀ extent ∈ externalExtents.pairs,
    extent.2.sourceOffset + extent.2.length ≤ CommittedFile.logicalSize extent.2.source
  small : size < 2 ^ 64

/-- What the audit of the data checks. -/
structure Valid [CommittedFile File] (data : SparseData File) : Prop where
  fits : Fits data.logicalSize data.extents data.externalExtents
  counted : data = ofMaps data.logicalSize data.extents data.externalExtents

section Fits

variable [CommittedFile File] {size : ℕ} {extents : SortedMap ℕ ResidentDirtyData}
  {external : SortedMap ℕ (ExternalDirtyData File)}

theorem Fits.valid (fits : Fits size extents external) : (ofMaps size extents external).Valid where
  fits := fits
  counted := rfl

theorem fits_empty (small : size < 2 ^ 64) : Fits size .empty (.empty : SortedMap ℕ
    (ExternalDirtyData File)) where
  resident := apart_empty
  external := apart_empty
  separate := fun _ mem => nomatch mem
  residentInside := fun _ mem => nomatch mem
  externalInside := fun _ mem => nomatch mem
  sources := fun _ mem => nomatch mem
  small := small

section

variable (fits : Fits size extents external)

include fits

theorem Fits.grow {larger : ℕ} (grows : size ≤ larger) (small : larger < 2 ^ 64) :
    Fits larger extents external where
  __ := fits
  residentInside := fun extent mem => (fits.residentInside extent mem).trans grows
  externalInside := fun extent mem => (fits.externalInside extent mem).trans grows
  small := small

theorem Fits.at?_eq_none {position : ℕ} {stored : Stored}
    (found : extents.at? position = some stored) : external.at? position = none := by
  rcases fits.resident.at?_eq_some_iff.mp found with ⟨extent, mem, ⟨starts, stops⟩, _⟩
  rw [at?_eq_none_iff]
  rintro other otherMem ⟨otherStarts, otherStops⟩
  change position < extent.1 + extent.2.length at stops
  apply fits.separate extent mem other otherMem
  constructor <;> omega

theorem Fits.weight_le : extents.weight + external.weight ≤ size := by
  rw [fits.resident.weight_eq_card fits.residentInside,
    fits.external.weight_eq_card fits.externalInside]
  rw [← card_union_of_disjoint]
  · calc _ ≤ (Finset.range size).card :=
          card_le_card (union_subset (filter_subset _ _) (filter_subset _ _))
      _ = size := card_range size
  · rw [Finset.disjoint_left]
    intro position inResident inExternal
    rcases Option.isSome_iff_exists.mp (Finset.mem_filter.mp inResident).2 with ⟨stored, found⟩
    have absent := fits.at?_eq_none found
    rw [Finset.mem_filter, absent] at inExternal
    cases inExternal.2

theorem Fits.cutResident (ordered : start < stop) :
    Fits size (extents.cut start stop) external where
  __ := fits
  resident := fits.resident.cut ordered
  separate := by
    intro extent mem other otherMem overlaps
    rcases fits.resident.of_mem_cut ordered mem with ⟨old, oldMem, nonempty, place, _⟩
    apply fits.separate old oldMem other otherMem
    rcases overlaps with ⟨before, reaches⟩
    change _ ∧ extent.1 + extent.2.length = min start (old.1 + old.2.length) ∨
      _ ∧ extent.1 + extent.2.length = old.1 + old.2.length at place
    constructor <;> omega
  residentInside := fun extent mem =>
    fits.resident.stop_le_of_mem_cut ordered fits.residentInside mem

theorem Fits.cutExternal (ordered : start < stop) :
    Fits size extents (external.cut start stop) where
  __ := fits
  external := fits.external.cut ordered
  separate := by
    intro extent mem other otherMem overlaps
    rcases fits.external.of_mem_cut ordered otherMem with ⟨old, oldMem, nonempty, place, _⟩
    apply fits.separate extent mem old oldMem
    rcases overlaps with ⟨before, reaches⟩
    constructor <;> omega
  externalInside := fun extent mem =>
    fits.external.stop_le_of_mem_cut ordered fits.externalInside mem
  sources := by
    intro extent mem
    rcases (fits.external.mem_cut ordered).mp mem with ⟨inMap, _⟩ | ⟨old, inMap, overlaps, piece⟩
    · exact fits.sources extent inMap
    · have inside := fits.sources old inMap
      rcases overlaps with ⟨before, reaches⟩
      change start < old.1 + old.2.length at reaches
      rcases mem_pieces.mp piece with ⟨left, rfl⟩ | ⟨right, rfl⟩
      · change old.2.sourceOffset + (start - old.1) ≤ CommittedFile.logicalSize old.2.source
        omega
      · change stop < old.1 + old.2.length at right
        change old.2.sourceOffset + (stop - old.1) + (old.1 + old.2.length - stop) ≤
          CommittedFile.logicalSize old.2.source
        omega

theorem Fits.insertResident {extent : ResidentDirtyData} (nonempty : 0 < extent.length)
    (inside : start + extent.length ≤ size)
    (free : ∀ other ∈ extents.pairs, ¬ SortedMap.Overlaps start (start + extent.length) other)
    (externalFree : ∀ other ∈ external.pairs,
      ¬ SortedMap.Overlaps start (start + extent.length) other) :
    Fits size (extents.insert start extent) external := by
  have reaches : start < Extent.stop start extent := by
    change start < start + extent.length
    omega
  have members := fun pair : ℕ × ResidentDirtyData =>
    @SortedMap.Apart.mem_insert_of_free _ _ _ _ _ _ fits.resident reaches free pair
  refine { fits with
    resident := fits.resident.insert reaches free, separate := ?_, residentInside := ?_ }
  · intro other mem
    rcases (members other).mp mem with rfl | old
    · exact externalFree
    · exact fits.separate other old
  · intro other mem
    rcases (members other).mp mem with rfl | old
    · exact inside
    · exact fits.residentInside other old

end

variable {extent : ExternalDirtyData File}

theorem Fits.insertExternal (fits : Fits size extents external) (nonempty : 0 < extent.length)
    (inside : start + extent.length ≤ size)
    (sources : extent.sourceOffset + extent.length ≤ CommittedFile.logicalSize extent.source)
    (residentFree : ∀ other ∈ extents.pairs, ¬ SortedMap.Overlaps start (start + extent.length)
      other)
    (free : ∀ other ∈ external.pairs, ¬ SortedMap.Overlaps start (start + extent.length) other) :
    Fits size extents (external.insert start extent) := by
  have reaches : start < Extent.stop start extent := by
    change start < start + extent.length
    omega
  have members := fun pair : ℕ × ExternalDirtyData File =>
    @SortedMap.Apart.mem_insert_of_free _ _ _ _ _ _ fits.external reaches free pair
  refine { fits with
    external := fits.external.insert reaches free, separate := ?_, externalInside := ?_
    sources := ?_ }
  · intro other otherMem pair mem
    rcases (members pair).mp mem with rfl | old
    · rintro ⟨before, after⟩
      apply residentFree other otherMem
      exact ⟨after, before⟩
    · exact fits.separate other otherMem pair old
  · intro other mem
    rcases (members other).mp mem with rfl | old
    · exact inside
    · exact fits.externalInside other old
  · intro other mem
    rcases (members other).mp mem with rfl | old
    · exact sources
    · exact fits.sources other old

theorem free_cut {α β : Type} [Extent α β] {map : SortedMap ℕ α} (apart : map.Apart)
    (ordered : start < stop) :
    ∀ pair ∈ (map.cut start stop).pairs, ¬ SortedMap.Overlaps start stop pair := by
  rintro pair mem ⟨before, reaches⟩
  rcases apart.of_mem_cut ordered mem with ⟨old, _, nonempty, place, _⟩
  omega

theorem Fits.extentValid (fits : Fits size extents external) {extent : ℕ × ResidentDirtyData}
    (mem : extent ∈ extents.pairs) : (ofMaps size extents external).extentValid extent = true := by
  have nonempty : extent.1 < extent.1 + extent.2.length := fits.resident.nonempty extent mem
  have inside := fits.residentInside extent mem
  have small := fits.small
  rw [SparseData.extentValid]
  simp only [Bool.and_eq_true, decide_eq_true_eq, Option.all_eq_true]
  refine ⟨⟨⟨⟨by omega, by omega⟩, inside⟩, ?_⟩, ?_⟩
  · intro previous found
    rcases below?_eq_some_iff.mp found with ⟨previousMem, before, _⟩
    exact fits.resident.apart previous previousMem extent mem before
  · intro following found
    rcases mem_atLeast.mp (List.mem_of_head? found) with ⟨followingMem, after⟩
    exact fits.resident.apart extent mem following followingMem (by omega)

theorem Fits.assertValidAround (fits : Fits size extents external) (position : ℕ) :
    SparseData.assertValidAround position (ofMaps size extents external) =
      (.ok (), ofMaps size extents external) := by
  have valid : (ofMaps size extents external).validAround position = true := by
    rw [validAround]
    simp only [Bool.and_eq_true, Option.all_eq_true]
    constructor
    · intro extent found
      exact fits.extentValid (floor?_eq_some_iff.mp found).1
    · intro extent found
      exact fits.extentValid (mem_atLeast.mp (List.mem_of_head? found)).1
  rw [SparseData.assertValidAround, settle_apply, assertThat, require,
    if_neg (not_not.mpr valid)]

omit [CommittedFile File] in
theorem takeResident_ofMaps {extent : ResidentDirtyData}
    (found : extents.get? start = some extent) : takeResident start (ofMaps size extents external) =
      (.ok (), ofMaps size (extents.remove start) external) := by
  have weight := weight_remove found
  change _ + (start + extent.length - start) = _ at weight
  have present : settle (fun data => expect (data.extents.get? start))
      (ofMaps size extents external) = (.ok extent, ofMaps size extents external) := by
    change (expect (extents.get? start), _) = _
    rw [found]
    rfl
  rw [takeResident, bind_of_ok present, assert_bind, assert_bind, change_apply]
  · congr 1
    simp only [ofMaps, mk.injEq, true_and, and_true]
    omega
  · change _ ≤ extents.weight
    omega
  · change _ ≤ extents.weight + external.weight
    omega

omit [CommittedFile File] in
theorem putResident_ofMaps {extent : ResidentDirtyData} (absent : extents.get? start = none)
    (fits : extents.weight + extent.length + external.weight < 2 ^ 64) :
    putResident start extent (ofMaps size extents external) =
      (.ok (), ofMaps size (extents.insert start extent) external) := by
  have weight := @weight_insert _ _ _ _ _ extent absent
  change _ = _ + (start + extent.length - start) at weight
  rw [putResident, assert_bind, assert_bind, assert_bind, change_apply]
  · congr 1
    simp only [ofMaps, mk.injEq, true_and, and_true]
    omega
  · exact absent
  · change extents.weight + _ < _
    omega
  · change extents.weight + external.weight + _ < _
    omega

omit [CommittedFile File] in
theorem takeExternal_ofMaps (found : external.get? start = some extent) :
    takeExternal start (ofMaps size extents external) =
      (.ok (), ofMaps size extents (external.remove start)) := by
  have weight := weight_remove found
  change _ + (start + extent.length - start) = _ at weight
  have present : settle (fun data => expect (data.externalExtents.get? start))
      (ofMaps size extents external) = (.ok extent, ofMaps size extents external) := by
    change (expect (external.get? start), _) = _
    rw [found]
    rfl
  rw [takeExternal, bind_of_ok present, assert_bind, change_apply]
  · congr 1
    simp only [ofMaps, mk.injEq, true_and, and_true]
    omega
  · change _ ≤ extents.weight + external.weight
    omega

omit [CommittedFile File] in
theorem putExternal_ofMaps (absent : external.get? start = none)
    (fits : external.weight + extent.length + extents.weight < 2 ^ 64) :
    putExternal start extent (ofMaps size extents external) =
      (.ok (), ofMaps size extents (external.insert start extent)) := by
  have weight := @weight_insert _ _ _ _ _ extent absent
  change _ = _ + (start + extent.length - start) at weight
  rw [putExternal, assert_bind, assert_bind, change_apply]
  · congr 1
    simp only [ofMaps, mk.injEq, true_and, and_true]
    omega
  · exact absent
  · change extents.weight + external.weight + _ < _
    omega

end Fits

end SparseData

end Fastdup.Posix
