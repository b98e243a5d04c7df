import Mathlib.Data.List.Basic

/-!
# Windows and overwritten parts of a list

A window is the part of a list between two positions. Windows distribute over concatenation,
so what holds of the pieces of a list holds of the whole. `overwrite` replaces the elements
from a position on and does the same: each piece is overwritten at its own position.
-/

namespace Fastdup.Library

open List Option Nat

variable {α : Type}

/-- The elements from position `start` up to, but not including, position `finish`. -/
def window (start finish : ℕ) (items : List α) : List α :=
  (items.take finish).drop start

theorem window_append (start finish : ℕ) (left right : List α) :
    window start finish (left ++ right) =
      window start finish left ++ window (start - left.length) (finish - left.length) right := by
  unfold window
  rw [take_append, drop_append, length_take]
  by_cases covers : left.length ≤ finish
  · rw [Nat.min_eq_right covers]
  · have nothing : finish - left.length = 0 := by omega
    rw [nothing, take_zero, drop_nil, drop_nil]

theorem length_window (start finish : ℕ) (items : List α) :
    (window start finish items).length = min finish items.length - start := by
  rw [window, length_drop, length_take]

theorem getElem?_window {start finish index : ℕ} (items : List α)
    (inside : start + index < finish) :
    (window start finish items)[index]? = items[start + index]? := by
  rw [window, getElem?_drop, getElem?_take_of_lt inside]

theorem window_congr {start finish finish' : ℕ} {items : List α}
    (same : min finish items.length = min finish' items.length) :
    window start finish items = window start finish' items := by
  have clipped : items.take finish = items.take finish' := take_eq_take_iff.mpr same
  rw [window, window, clipped]

theorem window_zero (finish : ℕ) (items : List α) : window 0 finish items = items.take finish :=
  drop_zero

variable {start finish : ℕ}

theorem window_to_end {items : List α} (covers : items.length ≤ finish) :
    window start finish items = items.drop start := by
  rw [window, take_of_length_le covers]

theorem windows_eq (items : List α) (ordered : start ≤ finish) :
    items.take start ++ window start finish items ++ items.drop finish = items := by
  have front : items.take start ++ window start finish items = items.take finish := by
    have split := take_append_drop start (items.take finish)
    rw [take_take, Nat.min_eq_left ordered] at split
    exact split
  rw [front, take_append_drop]

/-- The list, whose first element stands at `position`, with the elements from `start` on
replaced as far as the replacement goes. -/
def overwrite (position start : ℕ) (replacement items : List α) : List α :=
  items.mapIdx fun index item =>
    if start ≤ position + index then replacement.getD (position + index - start) item else item

theorem overwrite_append (position start : ℕ) (replacement left right : List α) :
    overwrite position start replacement (left ++ right) =
      overwrite position start replacement left ++
        overwrite (position + left.length) start replacement right := by
  unfold overwrite
  rw [mapIdx_append]
  congr 2
  funext index item
  rw [Nat.add_comm index, Nat.add_assoc]

variable {replacement items : List α}

theorem overwrite_apart {position start : ℕ}
    (apart : position + items.length ≤ start ∨ start + replacement.length ≤ position ∨
      items.length = 0 ∨ replacement.length = 0) :
    overwrite position start replacement items = items := by
  apply ext_getElem?
  intro index
  rw [overwrite, getElem?_mapIdx]
  by_cases inside : index < items.length
  · rw [getElem?_eq_getElem inside, map_some]
    split
    · rw [getD_eq_getElem?_getD, getElem?_eq_none (by omega), getD_none]
    · rfl
  · rw [getElem?_eq_none (by omega)]
    rfl

theorem overwrite_eq_windows {position start overlapStart overlapEnd : ℕ}
    (first : overlapStart = max start position)
    (last : overlapEnd = min (start + replacement.length) (position + items.length))
    (meeting : overlapStart < overlapEnd) : overwrite position start replacement items =
      window 0 (overlapStart - position) items ++
        window (overlapStart - start) (overlapEnd - start) replacement ++
        window (overlapEnd - position) items.length items := by
  have frontLength : (window 0 (overlapStart - position) items).length =
      overlapStart - position := by
    rw [length_window]
    omega
  have middleLength : (window (overlapStart - start) (overlapEnd - start) replacement).length =
      overlapEnd - overlapStart := by
    rw [length_window]
    omega
  apply ext_getElem?
  intro index
  rw [overwrite, getElem?_mapIdx]
  by_cases before : index < overlapStart - position
  · rw [getElem?_append_left (by rw [length_append]; omega),
      getElem?_append_left (by omega), getElem?_window items (by omega), Nat.zero_add,
      getElem?_eq_getElem (by omega), map_some, if_neg (by omega)]
  · by_cases within : index < overlapEnd - position
    · rw [getElem?_append_left (by rw [length_append]; omega),
        getElem?_append_right (by omega), frontLength,
        getElem?_window replacement (by omega), getElem?_eq_getElem (by omega),
        map_some, if_pos (by omega), getD_eq_getElem?_getD,
        getElem?_eq_getElem (by omega), getElem?_eq_getElem (by omega), getD_some]
      congr 2
      omega
    · rw [getElem?_append_right (by rw [length_append]; omega), length_append,
        frontLength, middleLength]
      by_cases inside : index < items.length
      · rw [getElem?_window items (by omega), getElem?_eq_getElem inside, map_some,
          getD_eq_getElem?_getD, getElem?_eq_none (by omega), getD_none, ite_self]
        rw [getElem?_eq_getElem (by omega)]
        congr 2
        omega
      · rw [getElem?_eq_none (by omega), map_none, getElem?_eq_none]
        rw [length_window]
        omega

theorem overwrite_zero (exact : start + replacement.length = finish)
    (inside : finish ≤ items.length) :
    overwrite 0 start replacement items = items.take start ++ replacement ++ items.drop finish := by
  by_cases empty : replacement.length = 0
  · have same : finish = start := by omega
    rw [overwrite_apart (by omega), length_eq_zero_iff.mp empty, append_nil, same, take_append_drop]
  · have front : start = max start 0 := by omega
    have back : finish = min (start + replacement.length) (0 + items.length) := by omega
    have whole : replacement.take (finish - start) = replacement := take_of_length_le (by omega)
    rw [overwrite_eq_windows front back (by omega), Nat.sub_zero, Nat.sub_self, Nat.sub_zero,
      window_zero, window_zero, window_to_end (Nat.le_refl _), whole]

theorem flatten_toChunks_go (size : ℕ) (items : List α) (group : Array α)
    (groups : Array (List α)) : (toChunks.go size items group groups).flatten =
      groups.toList.flatten ++ group.toList ++ items := by
  induction items generalizing group groups with
  | nil => simp [toChunks.go]
  | cons item rest ih =>
    rw [toChunks.go]
    split
    · simp [ih]
    · simp [ih]

theorem flatten_toChunks (size : ℕ) (items : List α) : (items.toChunks size).flatten = items := by
  cases items with
  | nil => rfl
  | cons item rest =>
    cases size with
    | zero => simp [toChunks]
    | succ size => simp [toChunks, flatten_toChunks_go]

end Fastdup.Library
