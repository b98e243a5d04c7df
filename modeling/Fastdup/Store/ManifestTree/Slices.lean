import Fastdup.Library.Windows
import Fastdup.Store.ManifestTree.Walk

/-!
# Slices of extents

`slice_extents` cuts extents at byte positions. It never fails inside the range of valid
extents; the slice denotes the window of the bytes they denote, and it has one extent for each
extent of which the window holds a byte. A cut through a DATA extent leaves a DATA_SLICE of the
same Chunk, so the denoted bytes keep their Chunk and their offset in it.
-/

namespace Fastdup.Store

open Library Checked Format List ManifestExtent

variable {ObjectId : Type} {extent : ManifestExtent} {start finish : ℕ}

theorem window_cells (inside : finish ≤ extent.logicalLength) : window start finish extent.cells =
      (List.range (finish - start)).map fun position => extent.source (start + position) := by
  apply ext_getElem?
  intro index
  by_cases selected : start + index < finish
  · rw [getElem?_window _ selected, cells, getElem?_map, getElem?_map,
      getElem?_range (by omega), getElem?_range (by omega)]
    rfl
  · rw [getElem?_eq_none, getElem?_eq_none]
    · simp
      omega
    · rw [length_window, length_cells]
      omega

/-- A slice of one extent denotes a window of the extent. -/
structure SliceOf (extent : ManifestExtent) (start finish : ℕ) (slice : ManifestExtent) :
    Prop where
  valid : slice.Valid
  length : slice.logicalLength = finish - start
  cells : slice.cells = window start finish extent.cells

theorem sliceExtent_eq {skipped selectedLength : ℕ} (valid : extent.Valid)
    (positive : 0 < selectedLength) (inside : skipped + selectedLength ≤ extent.logicalLength) :
    ∃ slice, (sliceExtent skipped selectedLength extent :
        Except (ManifestTreeError ObjectId) ManifestExtent) = .ok slice ∧
      SliceOf extent skipped (skipped + selectedLength) slice := by
  have width : skipped + selectedLength - skipped = selectedLength := by omega
  cases extent with
  | data length chunkId =>
    simp only [ManifestExtent.Valid, MAX_LOGICAL_CHUNK_BYTES] at valid
    simp only [logicalLength] at inside
    by_cases whole : selectedLength = length
    · have unskipped : skipped = 0 := by omega
      refine ⟨.data length chunkId, if_pos whole, valid, ?_, ?_⟩
      · rw [width, whole]
        rfl
      · rw [window_cells inside, width, unskipped, whole]
        simp [cells, logicalLength]
    · refine ⟨.dataSlice selectedLength chunkId length skipped, ?_, ?_, width.symm, ?_⟩
      · simp only [sliceExtent, if_neg whole]
        rw [toU32_ok.mpr ⟨by omega, rfl⟩, ok_bind, toU32_ok.mpr ⟨by omega, rfl⟩]
        rfl
      · simp only [ManifestExtent.Valid, MAX_LOGICAL_CHUNK_BYTES]
        omega
      · rw [window_cells inside, width]
        rfl
  | dataSlice length chunkId chunkLength chunkOffset =>
    simp only [ManifestExtent.Valid, MAX_LOGICAL_CHUNK_BYTES] at valid
    simp only [logicalLength] at inside
    refine ⟨.dataSlice selectedLength chunkId chunkLength (chunkOffset + skipped), ?_, ?_,
      width.symm, ?_⟩
    · simp only [sliceExtent]
      rw [toU32_ok.mpr ⟨by omega, rfl⟩, ok_bind, toU32_ok.mpr ⟨by omega, rfl⟩]
      rfl
    · simp only [ManifestExtent.Valid, MAX_LOGICAL_CHUNK_BYTES]
      omega
    · rw [window_cells inside, width, cells]
      apply map_congr_left
      intro position _
      simp only [source, Nat.add_assoc]
  | hole length =>
    refine ⟨.hole selectedLength, rfl, positive, width.symm, ?_⟩
    rw [window_cells inside, width]
    rfl
  | fill length value =>
    refine ⟨.fill selectedLength value, rfl, positive, width.symm, ?_⟩
    rw [window_cells inside, width]
    rfl

/-- The number of placed extents of which a range holds a byte. -/
def touchedCount (base start finish : ℕ) (extents : List ManifestExtent) : ℕ :=
  (placed base extents).countP fun item =>
    decide (max item.1 start < min (item.1 + item.2.logicalLength) finish)

/-- Slices of consecutive extents denote a window of what the extents denote. -/
structure SlicesOf (extents : List ManifestExtent) (base start finish : ℕ)
    (slices : List ManifestExtent) : Prop where
  valid : ∀ slice ∈ slices, slice.Valid
  cells : extentCells slices = window (start - base) (finish - base) (extentCells extents)
  count : slices.length = touchedCount base start finish extents

theorem selectExtent_eq {start finish cursor : ℕ} (valid : extent.Valid) :
    ∃ selected, (selectExtent start finish cursor (cursor + extent.logicalLength) extent :
        Except (ManifestTreeError ObjectId) (List ManifestExtent)) = .ok selected ∧
      SlicesOf [extent] cursor start finish selected := by
  by_cases touched : max cursor start < min (cursor + extent.logicalLength) finish
  · have sliceable : ∃ slice, (sliceExtent (max cursor start - cursor)
          (min (cursor + extent.logicalLength) finish - max cursor start) extent :
          Except (ManifestTreeError ObjectId) ManifestExtent) = .ok slice ∧
        SliceOf extent (max cursor start - cursor) (max cursor start - cursor +
          (min (cursor + extent.logicalLength) finish - max cursor start)) slice :=
      sliceExtent_eq valid (by omega) (by omega)
    rcases sliceable with ⟨slice, sliced, part⟩
    refine ⟨[slice], ?_, ?_, ?_, ?_⟩
    · simp only [selectExtent, if_pos touched]
      rw [sliced]
      rfl
    · intro other mem
      rw [mem_singleton] at mem
      rw [mem]
      exact part.valid
    · rw [extentCells_cons, extentCells_cons, extentCells_nil, append_nil, append_nil, part.cells]
      have first : max cursor start - cursor = start - cursor := by omega
      rw [first]
      apply window_congr
      rw [length_cells]
      omega
    · rw [touchedCount, placed, countP_cons_of_pos (by simpa using touched)]
      rfl
  · refine ⟨[], if_neg touched, by simp, ?_, ?_⟩
    · symm
      apply length_eq_zero_iff.mp
      rw [length_window, length_extentCells, totalLength_cons, totalLength_nil]
      omega
    · rw [touchedCount, placed, countP_cons_of_neg (by simpa using touched)]
      rfl

variable {extents : List ManifestExtent}

theorem touchedCount_eq_zero {base start finish : ℕ} (apart : finish ≤ base) :
    touchedCount base start finish extents = 0 := by
  apply countP_eq_zero.mpr
  intro item mem
  have bounds := bounds_of_mem_placed mem
  simp only [decide_eq_true_eq]
  omega

theorem touchedCount_cons (base start finish : ℕ) (extent : ManifestExtent)
    (rest : List ManifestExtent) : touchedCount base start finish (extent :: rest) =
      touchedCount base start finish [extent] +
        touchedCount (base + extent.logicalLength) start finish rest := by
  rw [touchedCount, touchedCount, touchedCount, ← countP_append]
  rfl

theorem SlicesOf.cons {rest first others : List ManifestExtent} {base start finish : ℕ}
    (head : SlicesOf [extent] base start finish first)
    (tail : SlicesOf rest (base + extent.logicalLength) start finish others) :
    SlicesOf (extent :: rest) base start finish (first ++ others) := by
  refine ⟨?_, ?_, ?_⟩
  · intro slice mem
    rcases mem_append.mp mem with inside | behind
    · exact head.valid slice inside
    · exact tail.valid slice behind
  · have single : extentCells [extent] = extent.cells := by simp
    rw [extentCells_append, head.cells, tail.cells, single, extentCells_cons, window_append,
      length_cells]
    congr 2
    · omega
    · omega
  · rw [length_append, head.count, tail.count, touchedCount_cons base start finish extent rest]

theorem sliceExtentsFrom_eq {start finish cursor : ℕ} (valid : ∀ extent ∈ extents, extent.Valid)
    (bounded : cursor + totalLength extents < 2 ^ 64)
    (inside : finish ≤ cursor + totalLength extents) :
    ∃ slices, (sliceExtentsFrom start finish cursor extents :
        Except (ManifestTreeError ObjectId) (List ManifestExtent)) = .ok slices ∧
      SlicesOf extents cursor start finish slices := by
  induction extents generalizing cursor with
  | nil =>
    rw [totalLength_nil] at inside
    refine ⟨[], ?_, by simp, ?_, rfl⟩
    · rw [sliceExtentsFrom, require, if_neg (by omega)]
      rfl
    · symm
      apply length_eq_zero_iff.mp
      simp [length_window]
  | cons extent rest ih =>
    rw [totalLength_cons] at bounded inside
    have selectable : ∃ selected, (selectExtent start finish cursor
          (cursor + extent.logicalLength) extent :
          Except (ManifestTreeError ObjectId) (List ManifestExtent)) = .ok selected ∧
        SlicesOf [extent] cursor start finish selected :=
      selectExtent_eq (valid extent mem_cons_self)
    rcases selectable with ⟨selected, chosen, head⟩
    rw [sliceExtentsFrom, checkedAdd_of_lt (by omega), ok_bind, chosen, ok_bind]
    by_cases last : cursor + extent.logicalLength ≥ finish
    · -- The loop ends here; the extents behind the range are not looked at.
      refine ⟨selected, if_pos last, ?_⟩
      have tail : SlicesOf rest (cursor + extent.logicalLength) start finish [] := by
        refine ⟨by simp, ?_, (touchedCount_eq_zero last).symm⟩
        symm
        apply length_eq_zero_iff.mp
        rw [length_window]
        omega
      have slices := head.cons tail
      rwa [append_nil] at slices
    · rcases @ih (cursor + extent.logicalLength)
        (fun other mem => valid other (mem_cons_of_mem _ mem)) (by omega) (by omega)
        with ⟨others, sliced, tail⟩
      refine ⟨selected ++ others, ?_, head.cons tail⟩
      rw [if_neg last, sliced]
      rfl

variable (ObjectId) in
theorem sliceExtents_eq (valid : ∀ extent ∈ extents, extent.Valid)
    (bounded : totalLength extents < 2 ^ 64) (ordered : start ≤ finish)
    (inside : finish ≤ totalLength extents) : ∃ slices, (sliceExtents extents start finish :
        Except (ManifestTreeError ObjectId) (List ManifestExtent)) = .ok slices ∧
      SlicesOf extents 0 start finish slices := by
  have sliceable : ∃ slices, (sliceExtentsFrom start finish 0 extents :
        Except (ManifestTreeError ObjectId) (List ManifestExtent)) = .ok slices ∧
      SlicesOf extents 0 start finish slices :=
    sliceExtentsFrom_eq valid (by omega) (by omega)
  rcases sliceable with ⟨slices, sliced, part⟩
  refine ⟨slices, ?_, part⟩
  rw [sliceExtents, require, if_neg (by omega), ok_bind, sliced]

theorem SlicesOf.of_eq {extents slices : List ManifestExtent}
    (valid : ∀ extent ∈ extents, extent.Valid) (bounded : totalLength extents < 2 ^ 64)
    (ordered : start ≤ finish) (inside : finish ≤ totalLength extents)
    (sliced : (sliceExtents extents start finish : Except (ManifestTreeError ObjectId)
      (List ManifestExtent)) = .ok slices) : SlicesOf extents 0 start finish slices := by
  rcases sliceExtents_eq ObjectId valid bounded ordered inside with ⟨slices', sliced', part⟩
  rw [sliced] at sliced'
  cases sliced'
  exact part

theorem allocatedCells_window_cells (extent : ManifestExtent) (start finish : ℕ) :
    allocatedCells (window start finish extent.cells) =
      if extent.isHole then 0 else (window start finish extent.cells).length := by
  have uniform : ∀ cell ∈ extent.cells, (cell = .hole ↔ extent.isHole = true) := by
    intro cell mem
    rw [cells, mem_map] at mem
    rcases mem with ⟨position, _, rfl⟩
    cases extent <;> simp [source, isHole]
  split
  · rename_i hollow
    apply countP_eq_zero.mpr
    intro cell mem
    simpa using (uniform cell (mem_of_mem_take (mem_of_mem_drop mem))).mpr hollow
  · rename_i solid
    apply countP_eq_length.mpr
    intro cell mem
    have inside := mem_of_mem_take (mem_of_mem_drop mem)
    have allocated := (uniform cell inside).not.mpr solid
    simpa using allocated

theorem rangeAllocation_eq_window (base start finish : ℕ) (extents : List ManifestExtent) :
    rangeAllocation base start finish extents =
      allocatedCells (window (start - base) (finish - base) (extentCells extents)) := by
  induction extents generalizing base with
  | nil => simp [window, allocatedCells]
  | cons extent rest ih =>
    rw [rangeAllocation_cons, ih, extentCells_cons, window_append, allocatedCells_append,
      allocatedCells_window_cells, overlapBytes, length_window, length_cells,
      Nat.sub_sub, Nat.sub_sub]
    congr 1
    split
    · rfl
    · simp only
      omega

/-- Replacing a range changes the allocation by the difference of the two parts. -/
theorem allocatedCells_replace (cells replacement : List ByteSource) (ordered : start ≤ finish) :
    allocatedCells (cells.take start ++ replacement ++ cells.drop finish) +
      allocatedCells (window start finish cells) =
        allocatedCells cells + allocatedCells replacement := by
  have whole := congrArg allocatedCells (windows_eq cells ordered)
  simp only [allocatedCells_append] at whole ⊢
  omega

end Fastdup.Store
