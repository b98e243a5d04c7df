import Fastdup.Library.Attempt
import Fastdup.Library.SortedMap
import Mathlib.Order.Interval.Finset.Nat

/-!
# Maps of extents

An extent map has values that reach from their key up to a stop. While its extents lie apart, the
map is a partial function on positions, and cutting a range out of it is the restriction of that
function: the extents that overlap the range are removed, and what sticks out of the range on both
sides is put back.
-/

namespace Fastdup.Library

open List

/-- A value that fills the positions from its key up to a stop and that can be cut at a position
between them. -/
class Extent (α : Type) (β : outParam Type) where
  stop : ℕ → α → ℕ
  read : ℕ → α → ℕ → β
  upTo : ℕ → α → ℕ → α
  onward : ℕ → α → ℕ → α
  stop_upTo : ∀ {start : ℕ} {value : α} {position : ℕ}, start < position →
    position < stop start value → stop start (upTo start value position) = position
  stop_onward : ∀ {start : ℕ} {value : α} {position : ℕ}, start < position →
    position < stop start value → stop position (onward start value position) = stop start value
  read_upTo : ∀ {start : ℕ} {value : α} {position place : ℕ}, position < stop start value →
    start ≤ place → place < position →
    read start (upTo start value position) place = read start value place
  read_onward : ∀ {start : ℕ} {value : α} {position place : ℕ}, start < position →
    position ≤ place → place < stop start value →
    read position (onward start value position) place = read start value place

variable {key bound : ℕ} {ranges : List (ℕ × ℕ)}

namespace SortedMap

section Keys

variable {α : Type} {map : SortedMap ℕ α} {pair : ℕ × α}

theorem ext_mem {left right : SortedMap ℕ α}
    (same : ∀ pair, pair ∈ left.pairs ↔ pair ∈ right.pairs) : left = right := by
  apply ext
  have nodup : ∀ map : SortedMap ℕ α, map.pairs.Nodup := fun map =>
    List.Nodup.of_map Prod.fst map.keys_nodup
  have perm := (perm_ext_iff_of_nodup (nodup left) (nodup right)).mpr same
  refine perm.eq_of_pairwise ?_ left.sorted right.sorted
  omega

theorem eq_of_mem_of_key {left right : ℕ × α} (leftMem : left ∈ map.pairs)
    (rightMem : right ∈ map.pairs) (same : left.1 = right.1) : left = right :=
  inj_on_of_nodup_map map.keys_nodup leftMem rightMem same

def last? (map : SortedMap ℕ α) (test : ℕ → Bool) : Option (ℕ × α) :=
  (map.pairs.filter fun pair => test pair.1).getLast?

theorem last?_eq_some_iff {test : ℕ → Bool} : map.last? test = some pair ↔
      pair ∈ map.pairs ∧ test pair.1 ∧ ∀ other ∈ map.pairs, test other.1 → other.1 ≤ pair.1 := by
  have greatest : ∀ {last : ℕ × α}, map.last? test = some last →
      last ∈ map.pairs ∧ test last.1 ∧ ∀ other ∈ map.pairs, test other.1 → other.1 ≤ last.1 := by
    intro last found
    rcases getLast?_eq_some_iff.mp found with ⟨before, split⟩
    have sorted : (before ++ [last]).Pairwise fun left right => left.1 < right.1 :=
      split ▸ map.sorted.filter _
    have mem : last ∈ map.pairs.filter fun pair => test pair.1 := by
      rw [split]
      exact mem_append_right _ mem_cons_self
    refine ⟨(mem_filter.mp mem).1, (mem_filter.mp mem).2, ?_⟩
    intro other inMap passes
    have kept : other ∈ before ++ [last] := split ▸ mem_filter.mpr ⟨inMap, passes⟩
    rcases mem_append.mp kept with earlier | same
    · exact ((pairwise_append.mp sorted).2.2 other earlier last mem_cons_self).le
    · rw [mem_singleton.mp same]
  constructor
  · exact greatest
  · rintro ⟨mem, passes, above⟩
    cases found : map.last? test with
    | none =>
      have empty : (map.pairs.filter fun pair => test pair.1) = [] := getLast?_eq_none_iff.mp found
      have inFilter : pair ∈ map.pairs.filter fun pair => test pair.1 :=
        mem_filter.mpr ⟨mem, passes⟩
      rw [empty] at inFilter
      cases inFilter
    | some last =>
      have lastGreatest := greatest found
      have below := lastGreatest.2.2 pair mem passes
      have atLeast := above last lastGreatest.1 lastGreatest.2.1
      rw [eq_of_mem_of_key lastGreatest.1 mem (by omega)]

/-- The last extent that starts at or before the key. -/
def floor? (map : SortedMap ℕ α) (key : ℕ) : Option (ℕ × α) :=
  map.last? fun other => other ≤ key

def below? (map : SortedMap ℕ α) (key : ℕ) : Option (ℕ × α) :=
  map.last? fun other => other < key

/-- The pairs whose keys lie strictly between two bounds. -/
def between (map : SortedMap ℕ α) (low high : ℕ) : List (ℕ × α) :=
  map.pairs.filter fun pair => low < pair.1 ∧ pair.1 < high

def atLeast (map : SortedMap ℕ α) (key : ℕ) : List (ℕ × α) :=
  map.pairs.filter fun pair => key ≤ pair.1

theorem floor?_eq_some_iff : map.floor? key = some pair ↔
      pair ∈ map.pairs ∧ pair.1 ≤ key ∧ ∀ other ∈ map.pairs, other.1 ≤ key → other.1 ≤ pair.1 := by
  simp [floor?, last?_eq_some_iff]

theorem below?_eq_some_iff : map.below? key = some pair ↔
      pair ∈ map.pairs ∧ pair.1 < key ∧ ∀ other ∈ map.pairs, other.1 < key → other.1 ≤ pair.1 := by
  simp [below?, last?_eq_some_iff]

theorem mem_between {low high : ℕ} :
    pair ∈ map.between low high ↔ pair ∈ map.pairs ∧ low < pair.1 ∧ pair.1 < high := by
  simp [between]

theorem mem_atLeast : pair ∈ map.atLeast key ↔ pair ∈ map.pairs ∧ key ≤ pair.1 := by
  simp [atLeast]

def removeAll (keys : List ℕ) (map : SortedMap ℕ α) : SortedMap ℕ α :=
  keys.foldl (fun map key => map.remove key) map

theorem mem_removeAll {keys : List ℕ} :
    pair ∈ (map.removeAll keys).pairs ↔ pair ∈ map.pairs ∧ pair.1 ∉ keys := by
  induction keys generalizing map with
  | nil => simp [removeAll]
  | cons key rest ih =>
    have folded : map.removeAll (key :: rest) = (map.remove key).removeAll rest := rfl
    rw [folded, ih, pairs_remove, mem_filter, mem_cons, decide_eq_true_eq]
    tauto

theorem mem_remove_head {first : ℕ × α} {rest : List (ℕ × α)}
    (distinct : first.1 ∉ rest.map Prod.fst) (present : ∀ pair ∈ first :: rest, pair ∈ map.pairs) :
    ∀ pair ∈ rest, pair ∈ (map.remove first.1).pairs := by
  intro pair mem
  rw [pairs_remove, mem_filter, decide_eq_true_eq]
  exact ⟨present pair (.tail _ mem), fun same => distinct (mem_map.mpr ⟨pair, mem, same⟩)⟩

def insertAll (added : List (ℕ × α)) (map : SortedMap ℕ α) : SortedMap ℕ α :=
  added.foldl (fun map pair => map.insert pair.1 pair.2) map

theorem mem_insertAll {added : List (ℕ × α)} (distinct : (added.map Prod.fst).Nodup) :
    pair ∈ (map.insertAll added).pairs ↔
      pair ∈ added ∨ pair ∈ map.pairs ∧ pair.1 ∉ added.map Prod.fst := by
  induction added generalizing map with
  | nil => simp [insertAll]
  | cons first rest ih =>
    rw [map_cons, nodup_cons] at distinct
    have folded : map.insertAll (first :: rest) = (map.insert first.1 first.2).insertAll rest := rfl
    rw [folded, ih distinct.2, mem_insert, mem_cons, map_cons, mem_cons]
    constructor
    · rintro (later | ⟨rfl | ⟨mem, ne⟩, absent⟩)
      · exact .inl (.inr later)
      · exact .inl (.inl rfl)
      · exact .inr ⟨mem, fun either => either.elim ne absent⟩
    · rintro ((rfl | later) | ⟨mem, absent⟩)
      · exact .inr ⟨.inl rfl, distinct.1⟩
      · exact .inl later
      · exact .inr ⟨.inr ⟨mem, fun same => absent (.inl same)⟩, fun inRest =>
          absent (.inr inRest)⟩

end Keys

section Extents

variable {α β : Type} [Extent α β]

/-- The position lies in the extent. -/
def Covers (pair : ℕ × α) (position : ℕ) : Prop :=
  pair.1 ≤ position ∧ position < Extent.stop pair.1 pair.2

/-- The extent meets the range. -/
def Overlaps (start stop : ℕ) (pair : ℕ × α) : Prop :=
  pair.1 < stop ∧ start < Extent.stop pair.1 pair.2

instance (pair : ℕ × α) (position : ℕ) : Decidable (Covers pair position) := by
  delta Covers
  infer_instance

instance (start stop : ℕ) (pair : ℕ × α) : Decidable (Overlaps start stop pair) := by
  delta Overlaps
  infer_instance

/-- What the extent over a position has there. -/
def at? (map : SortedMap ℕ α) (position : ℕ) : Option β :=
  (map.pairs.find? fun pair => Covers pair position).map fun pair =>
    Extent.read pair.1 pair.2 position

/-- The extents of the map are nonempty and do not overlap. -/
structure Apart (map : SortedMap ℕ α) : Prop where
  nonempty : ∀ pair ∈ map.pairs, pair.1 < Extent.stop pair.1 pair.2
  apart : ∀ left ∈ map.pairs, ∀ right ∈ map.pairs, left.1 < right.1 →
    Extent.stop left.1 left.2 ≤ right.1

variable {map : SortedMap ℕ α} {start stop position : ℕ}

theorem at?_eq_none_iff : map.at? position = none ↔ ∀ pair ∈ map.pairs, ¬ Covers pair position := by
  simp [at?, find?_eq_none]

theorem apart_empty : Apart (SortedMap.empty : SortedMap ℕ α) where
  nonempty := fun _ mem => nomatch mem
  apart := fun _ mem => nomatch mem

namespace Apart

variable (apart : Apart map)

include apart

theorem unique {left right : ℕ × α} (leftMem : left ∈ map.pairs)
    (rightMem : right ∈ map.pairs) (coversLeft : Covers left position)
    (coversRight : Covers right position) : left = right := by
  have leftBefore := apart.apart left leftMem right rightMem
  have rightBefore := apart.apart right rightMem left leftMem
  have sameKey : left.1 = right.1 := by
    rcases coversLeft with ⟨leftStarts, leftStops⟩
    rcases coversRight with ⟨rightStarts, rightStops⟩
    omega
  exact eq_of_mem_of_key leftMem rightMem sameKey

theorem at?_of_mem {pair : ℕ × α} (mem : pair ∈ map.pairs) (covers : Covers pair position) :
    map.at? position = some (Extent.read pair.1 pair.2 position) := by
  cases found : map.pairs.find? fun pair => Covers pair position with
  | none =>
    have nowhere := find?_eq_none.mp found pair mem
    exact absurd covers (by simpa using nowhere)
  | some first =>
    have firstCovers : Covers first position := by simpa using find?_some found
    rw [at?, found, apart.unique (mem_of_find?_eq_some found) mem firstCovers covers]
    rfl

theorem at?_eq_some_iff {content : β} : map.at? position = some content ↔
      ∃ pair ∈ map.pairs, Covers pair position ∧ Extent.read pair.1 pair.2 position = content := by
  constructor
  · intro found
    rw [at?, Option.map_eq_some_iff] at found
    rcases found with ⟨pair, first, same⟩
    exact ⟨pair, mem_of_find?_eq_some first, by simpa using find?_some first, same⟩
  · rintro ⟨pair, mem, covers, rfl⟩
    exact apart.at?_of_mem mem covers

end Apart

/-- The extents that overlap a range: the one that starts last up to the range, and the ones that
start in it. -/
def overlapping (map : SortedMap ℕ α) (start stop : ℕ) : List (ℕ × α) :=
  ((map.floor? start).toList.filter fun pair => start < Extent.stop pair.1 pair.2) ++
    map.between start stop

/-- What sticks out of a range. -/
def pieces (start stop : ℕ) (pair : ℕ × α) : List (ℕ × α) :=
  (if pair.1 < start then [(pair.1, Extent.upTo pair.1 pair.2 start)] else []) ++
    if stop < Extent.stop pair.1 pair.2 then [(stop, Extent.onward pair.1 pair.2 stop)] else []

/-- What the overlapping extents keep outside the range. -/
def fragments (map : SortedMap ℕ α) (start stop : ℕ) : List (ℕ × α) :=
  (map.overlapping start stop).flatMap (pieces start stop)

def without (map : SortedMap ℕ α) (start stop : ℕ) : SortedMap ℕ α :=
  map.removeAll ((map.overlapping start stop).map Prod.fst)

/-- Clears a range, keeping what extends beyond it. -/
def cut (map : SortedMap ℕ α) (start stop : ℕ) : SortedMap ℕ α :=
  (map.without start stop).insertAll (map.fragments start stop)

variable {pair : ℕ × α}

theorem mem_pieces {piece : ℕ × α} : piece ∈ pieces start stop pair ↔
      pair.1 < start ∧ piece = (pair.1, Extent.upTo pair.1 pair.2 start) ∨
        stop < Extent.stop pair.1 pair.2 ∧ piece = (stop, Extent.onward pair.1 pair.2 stop) := by
  rw [pieces, mem_append]
  split <;> split <;> simp_all

theorem nodup_overlapping : ((map.overlapping start stop).map Prod.fst).Nodup := by
  rw [overlapping, map_append, nodup_append]
  refine ⟨?_, ?_, ?_⟩
  · cases map.floor? start with
    | none => exact nodup_nil
    | some pair => exact ((nodup_singleton pair.1).sublist (filter_sublist.map Prod.fst))
  · exact map.keys_nodup.sublist (filter_sublist.map Prod.fst)
  · intro first inFirst second inSecond
    rcases mem_map.mp inFirst with ⟨left, leftMem, rfl⟩
    rcases mem_map.mp inSecond with ⟨right, rightMem, rfl⟩
    have upTo := (floor?_eq_some_iff.mp (Option.mem_toList.mp (mem_filter.mp leftMem).1)).2.1
    have after := (mem_between.mp rightMem).2.1
    omega

theorem Apart.mem_overlapping (apart : Apart map) (ordered : start < stop) :
    pair ∈ map.overlapping start stop ↔ pair ∈ map.pairs ∧ Overlaps start stop pair := by
  rw [overlapping, mem_append, mem_filter, Option.mem_toList, mem_between, decide_eq_true_eq]
  constructor
  · rintro (⟨found, reaches⟩ | ⟨mem, after, before⟩)
    · rcases floor?_eq_some_iff.mp found with ⟨mem, upTo, _⟩
      exact ⟨mem, by omega, reaches⟩
    · have nonempty := apart.nonempty pair mem
      exact ⟨mem, before, by omega⟩
  · rintro ⟨mem, before, reaches⟩
    by_cases upTo : pair.1 ≤ start
    · refine .inl ⟨floor?_eq_some_iff.mpr ⟨mem, upTo, ?_⟩, reaches⟩
      -- an extent that starts between the pair and the range would overlap the pair
      intro other otherMem otherUpTo
      by_contra above
      have separate := apart.apart pair mem other otherMem (by omega)
      omega
    · exact .inr ⟨mem, by omega, before⟩

section Cut

variable (apart : Apart map) (ordered : start < stop)

include apart ordered

variable {piece : ℕ × α}

theorem Apart.mem_fragments : piece ∈ map.fragments start stop ↔
      ∃ pair ∈ map.pairs, Overlaps start stop pair ∧ piece ∈ pieces start stop pair := by
  simp [fragments, apart.mem_overlapping ordered, and_assoc]

omit ordered in
theorem Apart.covers_piece {pair : ℕ × α} (mem : pair ∈ map.pairs)
    (overlaps : Overlaps start stop pair) (isPiece : piece ∈ pieces start stop pair) :
    Covers pair piece.1 := by
  have nonempty := apart.nonempty pair mem
  rcases overlaps with ⟨before, reaches⟩
  rcases mem_pieces.mp isPiece with ⟨left, rfl⟩ | ⟨right, rfl⟩
  · exact ⟨Nat.le_refl _, nonempty⟩
  · exact ⟨before.le, right⟩

theorem Apart.nodup_fragments : ((map.fragments start stop).map Prod.fst).Nodup := by
  rw [fragments, map_flatMap, nodup_flatMap]
  constructor
  · intro pair mem
    rw [pieces]
    split
    · split
      · have ne : pair.1 ≠ stop := by omega
        simpa using ne
      · simp
    · split <;> simp
  · have distinct : ((map.overlapping start stop).map Prod.fst).Nodup := nodup_overlapping
    refine (List.Pairwise.and_mem.mp (pairwise_map.mp distinct)).imp ?_
    rintro left right ⟨leftMem, rightMem, ne⟩
    intro key inLeft inRight
    rcases mem_map.mp inLeft with ⟨leftPiece, isLeft, rfl⟩
    rcases mem_map.mp inRight with ⟨rightPiece, isRight, same⟩
    rcases (apart.mem_overlapping ordered).mp leftMem with ⟨leftIn, leftOverlaps⟩
    rcases (apart.mem_overlapping ordered).mp rightMem with ⟨rightIn, rightOverlaps⟩
    have coversLeft := apart.covers_piece leftIn leftOverlaps isLeft
    have coversRight := apart.covers_piece rightIn rightOverlaps isRight
    rw [same] at coversRight
    exact ne (congrArg Prod.fst (apart.unique leftIn rightIn coversLeft coversRight))

theorem Apart.mem_without :
    pair ∈ (map.without start stop).pairs ↔ pair ∈ map.pairs ∧ ¬ Overlaps start stop pair := by
  rw [without, mem_removeAll]
  refine and_congr_right fun mem => not_congr ?_
  constructor
  · intro listed
    rcases mem_map.mp listed with ⟨other, overlapping, same⟩
    rcases (apart.mem_overlapping ordered).mp overlapping with ⟨inMap, overlaps⟩
    rwa [← eq_of_mem_of_key inMap mem same]
  · intro overlaps
    exact mem_map.mpr ⟨pair, (apart.mem_overlapping ordered).mpr ⟨mem, overlaps⟩, rfl⟩

theorem Apart.fragment_absent {pair : ℕ × α} (isFragment : piece ∈ map.fragments start stop)
    (stays : pair ∈ (map.without start stop).pairs) : pair.1 ≠ piece.1 := by
  rcases (apart.mem_fragments ordered).mp isFragment with ⟨old, oldMem, overlaps, isPiece⟩
  rcases (apart.mem_without ordered).mp stays with ⟨mem, misses⟩
  intro same
  have covers := apart.covers_piece oldMem overlaps isPiece
  have here : Covers pair piece.1 := ⟨same.le, same ▸ apart.nonempty pair mem⟩
  rw [apart.unique oldMem mem covers here] at overlaps
  exact misses overlaps

theorem Apart.mem_cut : pair ∈ (map.cut start stop).pairs ↔
      pair ∈ map.pairs ∧ ¬ Overlaps start stop pair ∨
        ∃ old ∈ map.pairs, Overlaps start stop old ∧ pair ∈ pieces start stop old := by
  rw [cut, mem_insertAll (apart.nodup_fragments ordered), apart.mem_without ordered,
    ← apart.mem_fragments ordered]
  constructor
  · rintro (isFragment | ⟨stays, _⟩)
    · exact .inr isFragment
    · exact .inl stays
  · rintro (stays | isFragment)
    · refine .inr ⟨stays, ?_⟩
      intro listed
      rcases mem_map.mp listed with ⟨piece, isFragment, same⟩
      exact apart.fragment_absent ordered isFragment ((apart.mem_without ordered).mpr stays)
        same.symm
    · exact .inl isFragment

/-- What is left of an extent: its part before the range or its part after it. -/
theorem Apart.of_mem_cut (mem : pair ∈ (map.cut start stop).pairs) :
    ∃ old ∈ map.pairs, pair.1 < Extent.stop pair.1 pair.2 ∧
      (pair.1 = old.1 ∧ Extent.stop pair.1 pair.2 = min start (Extent.stop old.1 old.2) ∨
        pair.1 = max stop old.1 ∧ Extent.stop pair.1 pair.2 = Extent.stop old.1 old.2) ∧
      ∀ position, Covers pair position →
        Extent.read pair.1 pair.2 position = Extent.read old.1 old.2 position := by
  rcases (apart.mem_cut ordered).mp mem with ⟨inMap, misses⟩ | ⟨old, inMap, overlaps, isPiece⟩
  · have nonempty := apart.nonempty pair inMap
    refine ⟨pair, inMap, nonempty, ?_, fun _ _ => rfl⟩
    rw [Overlaps] at misses
    omega
  · rcases overlaps with ⟨before, reaches⟩
    rcases mem_pieces.mp isPiece with ⟨left, rfl⟩ | ⟨right, rfl⟩
    · have stops := Extent.stop_upTo left reaches
      refine ⟨old, inMap, ?_, .inl ⟨rfl, ?_⟩, ?_⟩
      · rw [stops]
        exact left
      · rw [stops]
        omega
      · intro position covers
        rw [Covers, stops] at covers
        exact Extent.read_upTo reaches covers.1 covers.2
    · have stops := Extent.stop_onward before right
      refine ⟨old, inMap, ?_, .inr ⟨?_, stops⟩, ?_⟩
      · rw [stops]
        exact right
      · omega
      · intro position covers
        rw [Covers, stops] at covers
        exact Extent.read_onward before covers.1 covers.2

theorem Apart.cut : Apart (map.cut start stop) where
  nonempty := by
    intro pair mem
    rcases apart.of_mem_cut ordered mem with ⟨_, _, nonempty, _⟩
    exact nonempty
  apart := by
    intro left leftMem right rightMem before
    rcases apart.of_mem_cut ordered leftMem with ⟨leftOld, leftIn, leftNonempty, leftPlace, _⟩
    rcases apart.of_mem_cut ordered rightMem with
      ⟨rightOld, rightIn, rightNonempty, rightPlace, _⟩
    have leftBefore := apart.apart leftOld leftIn rightOld rightIn
    by_cases same : leftOld.1 = rightOld.1 <;> omega

theorem Apart.at?_cut : (map.cut start stop).at? position =
      if start ≤ position ∧ position < stop then none else map.at? position := by
  split
  · rw [at?_eq_none_iff]
    rintro pair mem ⟨starts, stops⟩
    rcases apart.of_mem_cut ordered mem with ⟨_, _, _, place, _⟩
    omega
  · cases found : map.at? position with
    | none =>
      rw [at?_eq_none_iff] at found ⊢
      rintro pair mem ⟨starts, stops⟩
      rcases apart.of_mem_cut ordered mem with ⟨old, inMap, _, place, _⟩
      apply found old inMap
      constructor <;> omega
    | some content =>
      rcases apart.at?_eq_some_iff.mp found with ⟨old, inMap, covers, rfl⟩
      rw [(apart.cut ordered).at?_eq_some_iff]
      rcases covers with ⟨starts, stops⟩
      by_cases overlaps : Overlaps start stop old
      · rcases overlaps with ⟨before, reaches⟩
        by_cases left : position < start
        · have stopsAt : Extent.stop old.1 (Extent.upTo old.1 old.2 start) = start :=
            Extent.stop_upTo (Nat.lt_of_le_of_lt starts left) reaches
          refine ⟨_, (apart.mem_cut ordered).mpr (.inr ⟨old, inMap, ⟨before, reaches⟩,
            mem_pieces.mpr (.inl ⟨by omega, rfl⟩)⟩), ⟨starts, ?_⟩, ?_⟩
          · rw [stopsAt]
            exact left
          · exact Extent.read_upTo reaches starts left
        · have after : stop ≤ position := by omega
          have stopsAt := Extent.stop_onward before (Nat.lt_of_le_of_lt after stops)
          refine ⟨_, (apart.mem_cut ordered).mpr (.inr ⟨old, inMap, ⟨before, reaches⟩,
            mem_pieces.mpr (.inr ⟨by omega, rfl⟩)⟩), ⟨after, ?_⟩, ?_⟩
          · rw [stopsAt]
            exact stops
          · exact Extent.read_onward before after stops
      · exact ⟨old, (apart.mem_cut ordered).mpr (.inl ⟨inMap, overlaps⟩), ⟨starts, stops⟩, rfl⟩

theorem Apart.stop_le_of_mem_cut (inside : ∀ pair ∈ map.pairs, Extent.stop pair.1 pair.2 ≤ bound)
    (mem : pair ∈ (map.cut start stop).pairs) : Extent.stop pair.1 pair.2 ≤ bound := by
  rcases apart.of_mem_cut ordered mem with ⟨old, inMap, _, place, _⟩
  have oldInside := inside old inMap
  omega

end Cut

def cutAll (ranges : List (ℕ × ℕ)) (map : SortedMap ℕ α) : SortedMap ℕ α :=
  ranges.foldl (fun map range => map.cut range.1 range.2) map

theorem Apart.cutAll (apart : Apart map) (ordered : ∀ range ∈ ranges, range.1 < range.2) :
    Apart (map.cutAll ranges) := by
  induction ranges generalizing map with
  | nil => exact apart
  | cons range rest ih =>
    exact ih (apart.cut (ordered range mem_cons_self)) fun other mem =>
      ordered other (.tail _ mem)

theorem Apart.at?_cutAll (apart : Apart map) (ordered : ∀ range ∈ ranges, range.1 < range.2) :
    (map.cutAll ranges).at? position =
      if ∃ range ∈ ranges, range.1 ≤ position ∧ position < range.2 then none
      else map.at? position := by
  induction ranges generalizing map with
  | nil => simp [SortedMap.cutAll]
  | cons range rest ih =>
    have first := ordered range mem_cons_self
    have folded : map.cutAll (range :: rest) = (map.cut range.1 range.2).cutAll rest := rfl
    rw [folded, ih (apart.cut first) fun other mem =>
      ordered other (.tail _ mem), apart.at?_cut first]
    simp only [mem_cons, exists_eq_or_imp]
    by_cases inFirst : range.1 ≤ position ∧ position < range.2
    · rw [if_pos inFirst, ite_self]
      exact (if_pos (.inl inFirst)).symm
    · rw [if_neg inFirst]
      simp only [inFirst, false_or]

theorem Apart.cut_eq_self (apart : Apart map) (ordered : start < stop)
    (misses : ∀ pair ∈ map.pairs, ¬ Overlaps start stop pair) : map.cut start stop = map := by
  apply ext_mem
  intro pair
  rw [apart.mem_cut ordered]
  constructor
  · rintro (⟨mem, _⟩ | ⟨old, mem, overlaps, _⟩)
    · exact mem
    · exact absurd overlaps (misses old mem)
  · intro mem
    exact .inl ⟨mem, misses pair mem⟩

section Insert

variable {value : α} (apart : Apart map) (nonempty : start < Extent.stop start value)
  (free : ∀ pair ∈ map.pairs, ¬ Overlaps start (Extent.stop start value) pair)

include apart nonempty free

theorem Apart.get?_eq_none_of_free : map.get? start = none := by
  rw [get?_eq_none_iff]
  intro pair mem same
  have reaches := apart.nonempty pair mem
  apply free pair mem
  constructor <;> omega

theorem Apart.mem_insert_of_free {pair : ℕ × α} :
    pair ∈ (map.insert start value).pairs ↔ pair = (start, value) ∨ pair ∈ map.pairs := by
  rw [mem_insert]
  refine or_congr_right (and_iff_left_of_imp fun mem => ?_)
  exact get?_eq_none_iff.mp (apart.get?_eq_none_of_free nonempty free) pair mem

theorem Apart.insert : Apart (map.insert start value) where
  nonempty := by
    intro pair mem
    rcases (apart.mem_insert_of_free nonempty free).mp mem with rfl | old
    · exact nonempty
    · exact apart.nonempty pair old
  apart := by
    intro left leftMem right rightMem before
    rcases (apart.mem_insert_of_free nonempty free).mp leftMem with rfl | leftOld
    · rcases (apart.mem_insert_of_free nonempty free).mp rightMem with rfl | rightOld
      · omega
      · have misses := free right rightOld
        have reaches := apart.nonempty right rightOld
        rw [Overlaps] at misses
        change Extent.stop start value ≤ _
        omega
    · rcases (apart.mem_insert_of_free nonempty free).mp rightMem with rfl | rightOld
      · have misses := free left leftOld
        rw [Overlaps] at misses
        omega
      · exact apart.apart left leftOld right rightOld before

theorem Apart.at?_insert : (map.insert start value).at? position =
      if start ≤ position ∧ position < Extent.stop start value then
        some (Extent.read start value position) else map.at? position := by
  split
  · rename_i inside
    exact (apart.insert nonempty free).at?_of_mem
      ((apart.mem_insert_of_free nonempty free).mpr (.inl rfl)) inside
  · rename_i outside
    cases found : map.at? position with
    | none =>
      rw [at?_eq_none_iff] at found ⊢
      intro pair mem covers
      rcases (apart.mem_insert_of_free nonempty free).mp mem with rfl | old
      · exact outside covers
      · exact found pair old covers
    | some content =>
      rcases apart.at?_eq_some_iff.mp found with ⟨pair, mem, covers, rfl⟩
      exact (apart.insert nonempty free).at?_of_mem
        ((apart.mem_insert_of_free nonempty free).mpr (.inr mem)) covers

end Insert

/-- The number of positions that the extents of a map fill. -/
def weight (map : SortedMap ℕ α) : ℕ :=
  (map.pairs.map fun pair => Extent.stop pair.1 pair.2 - pair.1).sum

abbrev span (pair : ℕ × α) : ℕ := Extent.stop pair.1 pair.2 - pair.1

theorem card_covered {pairs : List (ℕ × α)}
    (apart : pairs.Pairwise fun left right => Extent.stop left.1 left.2 ≤ right.1)
    (nonempty : ∀ pair ∈ pairs, pair.1 < Extent.stop pair.1 pair.2)
    (inside : ∀ pair ∈ pairs, Extent.stop pair.1 pair.2 ≤ bound) :
    ((Finset.range bound).filter fun position => ∃ pair ∈ pairs, Covers pair position).card =
      (pairs.map span).sum := by
  induction pairs with
  | nil => simp
  | cons first rest ih =>
    rw [pairwise_cons] at apart
    have later := ih apart.2 (fun pair mem => nonempty pair (.tail _ mem))
      fun pair mem => inside pair (.tail _ mem)
    have split : ((Finset.range bound).filter fun position =>
          ∃ pair ∈ first :: rest, Covers pair position) =
        Finset.Ico first.1 (Extent.stop first.1 first.2) ∪
          (Finset.range bound).filter fun position => ∃ pair ∈ rest, Covers pair position := by
      have firstInside := inside first mem_cons_self
      ext position
      simp only [Finset.mem_filter, Finset.mem_range, mem_cons, exists_eq_or_imp,
        Finset.mem_union, Finset.mem_Ico]
      constructor
      · rintro ⟨below, covers | later⟩
        · exact .inl covers
        · exact .inr ⟨below, later⟩
      · rintro (covers | ⟨below, later⟩)
        · exact ⟨by omega, .inl covers⟩
        · exact ⟨below, .inr later⟩
    have disjoint : Disjoint (Finset.Ico first.1 (Extent.stop first.1 first.2))
        ((Finset.range bound).filter fun position => ∃ pair ∈ rest, Covers pair position) := by
      rw [Finset.disjoint_left]
      intro position inFirst inRest
      rcases (Finset.mem_filter.mp inRest).2 with ⟨pair, mem, covers⟩
      have after := apart.1 pair mem
      rw [Finset.mem_Ico] at inFirst
      rw [Covers] at covers
      omega
    rw [split, Finset.card_union_of_disjoint disjoint, Nat.card_Ico, later, map_cons, sum_cons]

theorem Apart.weight_eq_card (apart : Apart map)
    (inside : ∀ pair ∈ map.pairs, Extent.stop pair.1 pair.2 ≤ bound) :
    map.weight = ((Finset.range bound).filter fun position => (map.at? position).isSome).card := by
  have ordered : map.pairs.Pairwise fun left right => Extent.stop left.1 left.2 ≤ right.1 := by
    refine (List.Pairwise.and_mem.mp map.sorted).imp ?_
    rintro left right ⟨leftMem, rightMem, before⟩
    exact apart.apart left leftMem right rightMem before
  rw [weight, ← card_covered ordered apart.nonempty inside]
  congr 1
  refine Finset.filter_congr fun position _ => ?_
  rw [Option.isSome_iff_ne_none, Ne, at?_eq_none_iff]
  push Not
  rfl

theorem weight_remove {value : α} (found : map.get? key = some value) :
    (map.remove key).weight + (Extent.stop key value - key) = map.weight :=
  sum_remove (span) found

theorem weight_insert {value : α} (absent : map.get? key = none) :
    (map.insert key value).weight = map.weight + (Extent.stop key value - key) := by
  have replaced : (map.insert key value).weight +
        (map.get? key).elim 0 (fun old => Extent.stop key old - key) =
      map.weight + (Extent.stop key value - key) :=
    sum_insert span
  rwa [absent] at replaced

theorem weight_removeAll {removed : List (ℕ × α)} (distinct : (removed.map Prod.fst).Nodup)
    (present : ∀ pair ∈ removed, pair ∈ map.pairs) : (map.removeAll (removed.map Prod.fst)).weight +
        (removed.map span).sum = map.weight := by
  induction removed generalizing map with
  | nil => rfl
  | cons first rest ih =>
    rw [map_cons, nodup_cons] at distinct
    have found : map.get? first.1 = some first.2 := get?_of_mem (present first mem_cons_self)
    have later := ih distinct.2 (mem_remove_head distinct.1 present)
    have without := weight_remove found
    have folded : map.removeAll ((first :: rest).map Prod.fst) =
        (map.remove first.1).removeAll (rest.map Prod.fst) := rfl
    rw [folded, map_cons, sum_cons, span]
    omega

/-- What sticks out of a range weighs no more than the extent it comes from. -/
theorem weight_pieces_le (ordered : start < stop) (overlaps : Overlaps start stop pair) :
    ((pieces start stop pair).map span).sum ≤ span pair := by
  rcases overlaps with ⟨before, reaches⟩
  rw [pieces]
  split
  · rename_i left
    have leftStops := Extent.stop_upTo left reaches
    split
    · rename_i right
      have rightStops := Extent.stop_onward before right
      simp only [singleton_append, map_cons, map_nil, sum_cons, sum_nil, span, leftStops,
        rightStops]
      omega
    · simp only [append_nil, map_cons, map_nil, sum_cons, sum_nil, span, leftStops]
      omega
  · split
    · rename_i right
      have rightStops := Extent.stop_onward before right
      simp only [nil_append, map_cons, map_nil, sum_cons, sum_nil, span, rightStops]
      omega
    · simp

theorem Apart.weight_fragments_le (apart : Apart map) (ordered : start < stop) :
    (map.without start stop).weight + ((map.fragments start stop).map span).sum ≤ map.weight := by
  have all : ∀ pairs : List (ℕ × α), (∀ pair ∈ pairs, Overlaps start stop pair) →
      ((pairs.flatMap (pieces start stop)).map span).sum ≤ (pairs.map span).sum := by
    intro pairs overlap
    induction pairs with
    | nil => exact Nat.le_refl _
    | cons first rest ih =>
      have one := weight_pieces_le ordered (overlap first mem_cons_self)
      have others := ih fun pair mem => overlap pair (.tail _ mem)
      rw [flatMap_cons, map_append, sum_append, map_cons, sum_cons]
      omega
  have removed : (map.without start stop).weight + ((map.overlapping start stop).map span).sum =
      map.weight :=
    weight_removeAll nodup_overlapping fun pair mem =>
      ((apart.mem_overlapping ordered).mp mem).1
  have kept := all (map.overlapping start stop) fun pair mem =>
    ((apart.mem_overlapping ordered).mp mem).2
  rw [fragments]
  omega

section Steps

variable {σ ε : Type} (embed : SortedMap ℕ α → σ) {take : ℕ → Attempt σ ε Unit}

section

variable (takes : ∀ map key value, map.get? key = some value →
    take key (embed map) = (.ok (), embed (map.remove key)))

include takes

theorem forM_remove {removed : List (ℕ × α)} (distinct : (removed.map Prod.fst).Nodup)
    (found : ∀ pair ∈ removed, pair ∈ map.pairs) : (removed.map Prod.fst).forM take (embed map) =
      (.ok (), embed (map.removeAll (removed.map Prod.fst))) := by
  induction removed generalizing map with
  | nil => rfl
  | cons first rest ih =>
    rw [map_cons, nodup_cons] at distinct
    have stepped := takes map first.1 first.2 (get?_of_mem (found first mem_cons_self))
    change (take first.1 >>= fun _ => (rest.map Prod.fst).forM take) (embed map) = _
    rw [Attempt.bind_of_ok stepped, ih distinct.2 (mem_remove_head distinct.1 found)]
    rfl

variable {put : ℕ × α → Attempt σ ε Unit}
  (puts : ∀ map pair, map.get? pair.1 = none →
    map.weight + (Extent.stop pair.1 pair.2 - pair.1) ≤ bound →
    put pair (embed map) = (.ok (), embed (map.insert pair.1 pair.2)))

include puts

omit takes in
theorem forM_insert {added : List (ℕ × α)} (distinct : (added.map Prod.fst).Nodup)
    (absent : ∀ pair ∈ added, map.get? pair.1 = none)
    (fits : map.weight + (added.map span).sum ≤ bound) :
    added.forM put (embed map) = (.ok (), embed (map.insertAll added)) := by
  induction added generalizing map with
  | nil => rfl
  | cons first rest ih =>
    rw [map_cons, nodup_cons] at distinct
    rw [map_cons, sum_cons, span] at fits
    have firstAbsent := absent first mem_cons_self
    have stepped := puts map first firstAbsent (by omega)
    change (put first >>= fun _ => rest.forM put) (embed map) = _
    rw [Attempt.bind_of_ok stepped, ih distinct.2]
    · rfl
    · intro pair mem
      rw [get?_insert, if_neg]
      · exact absent pair (.tail _ mem)
      · rintro same
        exact distinct.1 (mem_map.mpr ⟨pair, mem, same⟩)
    · rw [weight_insert firstAbsent]
      omega

/-- Removing the extents that overlap a range and putting back what sticks out cuts the range. -/
theorem Apart.forM_cut (apart : Apart map) (ordered : start < stop) (fits : map.weight ≤ bound) :
    (((map.overlapping start stop).map Prod.fst).forM take >>= fun _ =>
        (map.fragments start stop).forM put) (embed map) =
      (.ok (), embed (map.cut start stop)) := by
  have removed : ((map.overlapping start stop).map Prod.fst).forM take (embed map) =
      (.ok (), embed (map.without start stop)) :=
    forM_remove embed takes nodup_overlapping fun pair mem =>
      ((apart.mem_overlapping ordered).mp mem).1
  rw [Attempt.bind_of_ok removed]
  refine forM_insert embed puts (apart.nodup_fragments ordered) ?_ ?_
  · intro piece isFragment
    rw [get?_eq_none_iff]
    intro pair stays
    exact apart.fragment_absent ordered isFragment stays
  · exact (apart.weight_fragments_le ordered).trans fits

end

/-- The extent that reaches over a new end. -/
def crossing? (map : SortedMap ℕ α) (length : ℕ) : Option (ℕ × α) :=
  (map.below? length).filter fun pair => length < Extent.stop pair.1 pair.2

/-- The extents that reach behind a new end. -/
def behind (map : SortedMap ℕ α) (length : ℕ) : List (ℕ × α) :=
  map.atLeast length ++ (map.crossing? length).toList

/-- What is left of the extent that reaches over a new end. -/
def crossingPieces (map : SortedMap ℕ α) (length : ℕ) : List (ℕ × α) :=
  (map.crossing? length).toList.map fun pair => (pair.1, Extent.upTo pair.1 pair.2 length)

section Truncate

variable {length : ℕ}

theorem Apart.crossing?_eq_some_iff (apart : Apart map) {pair : ℕ × α} :
    map.crossing? length = some pair ↔
      pair ∈ map.pairs ∧ pair.1 < length ∧ length < Extent.stop pair.1 pair.2 := by
  rw [crossing?, Option.filter_eq_some_iff, below?_eq_some_iff, decide_eq_true_eq]
  constructor
  · rintro ⟨⟨mem, before, _⟩, reaches⟩
    exact ⟨mem, before, reaches⟩
  · rintro ⟨mem, before, reaches⟩
    refine ⟨⟨mem, before, ?_⟩, reaches⟩
    intro other otherMem otherBefore
    by_contra above
    have separate := apart.apart pair mem other otherMem (by omega)
    omega

theorem Apart.mem_behind (apart : Apart map) {pair : ℕ × α} :
    pair ∈ map.behind length ↔ pair ∈ map.pairs ∧ length < Extent.stop pair.1 pair.2 := by
  rw [behind, mem_append, mem_atLeast, Option.mem_toList, apart.crossing?_eq_some_iff]
  constructor
  · rintro (⟨mem, after⟩ | ⟨mem, _, reaches⟩)
    · have nonempty := apart.nonempty pair mem
      exact ⟨mem, by omega⟩
    · exact ⟨mem, reaches⟩
  · rintro ⟨mem, reaches⟩
    by_cases before : pair.1 < length
    · exact .inr ⟨mem, before, reaches⟩
    · exact .inl ⟨mem, by omega⟩

theorem Apart.nodup_behind (apart : Apart map) : ((map.behind length).map Prod.fst).Nodup := by
  rw [behind, map_append, nodup_append]
  refine ⟨?_, ?_, ?_⟩
  · exact map.keys_nodup.sublist (filter_sublist.map Prod.fst)
  · cases map.crossing? length with
    | none => exact nodup_nil
    | some pair => exact nodup_singleton _
  · intro first inFirst second inSecond
    rcases mem_map.mp inFirst with ⟨left, leftMem, rfl⟩
    rcases mem_map.mp inSecond with ⟨right, rightMem, rfl⟩
    have after := (mem_atLeast.mp leftMem).2
    have before := (apart.crossing?_eq_some_iff.mp (Option.mem_toList.mp rightMem)).2.1
    omega

theorem Apart.mem_crossingPieces (apart : Apart map) {piece : ℕ × α} :
    piece ∈ map.crossingPieces length ↔
      ∃ pair ∈ map.pairs, pair.1 < length ∧ length < Extent.stop pair.1 pair.2 ∧
        piece = (pair.1, Extent.upTo pair.1 pair.2 length) := by
  simp [crossingPieces, apart.crossing?_eq_some_iff, and_assoc, eq_comm]

theorem nodup_crossingPieces : ((map.crossingPieces length).map Prod.fst).Nodup := by
  rw [crossingPieces]
  cases map.crossing? length with
  | none => exact nodup_nil
  | some pair => exact nodup_singleton _

theorem keys_behind : (map.behind length).map Prod.fst =
    (map.atLeast length).map Prod.fst ++ (map.crossingPieces length).map Prod.fst := by
  rw [behind, map_append, crossingPieces, map_map]
  rfl

variable (apart : Apart map) (inside : ∀ pair ∈ map.pairs, Extent.stop pair.1 pair.2 ≤ bound)
  (shrinks : length < bound)

include apart inside shrinks

/-- Without the extents behind a new end, and with the rest of the one that reaches over it, the
map is cut off. -/
theorem Apart.insertAll_crossingPieces :
    (map.removeAll ((map.behind length).map Prod.fst)).insertAll (map.crossingPieces length) =
      map.cut length bound := by
  apply ext_mem
  intro pair
  rw [mem_insertAll nodup_crossingPieces, mem_removeAll, apart.mem_cut shrinks,
    apart.mem_crossingPieces]
  constructor
  · rintro (⟨old, mem, before, reaches, rfl⟩ | ⟨⟨mem, stays⟩, _⟩)
    · exact .inr ⟨old, mem, ⟨by omega, reaches⟩, mem_pieces.mpr (.inl ⟨before, rfl⟩)⟩
    · refine .inl ⟨mem, ?_⟩
      rintro ⟨_, reaches⟩
      exact stays (mem_map.mpr ⟨pair, apart.mem_behind.mpr ⟨mem, reaches⟩, rfl⟩)
  · rintro (⟨mem, misses⟩ | ⟨old, mem, overlaps, isPiece⟩)
    · have stops := inside pair mem
      have nonempty := apart.nonempty pair mem
      rw [Overlaps] at misses
      refine .inr ⟨⟨mem, ?_⟩, ?_⟩
      · intro listed
        rcases mem_map.mp listed with ⟨other, isBehind, same⟩
        rcases apart.mem_behind.mp isBehind with ⟨otherMem, reaches⟩
        rw [eq_of_mem_of_key otherMem mem same] at reaches
        omega
      · intro listed
        rcases mem_map.mp listed with ⟨piece, isPiece, same⟩
        rcases apart.mem_crossingPieces.mp isPiece with ⟨other, otherMem, _, reaches, rfl⟩
        rw [eq_of_mem_of_key otherMem mem same] at reaches
        omega
    · have stops := inside old mem
      rcases overlaps with ⟨_, reaches⟩
      rcases mem_pieces.mp isPiece with ⟨left, rfl⟩ | ⟨right, rfl⟩
      · exact .inl ⟨old, mem, left, reaches, rfl⟩
      · omega

theorem Apart.forM_truncate {take : ℕ → Attempt σ ε Unit} {put : ℕ × α → Attempt σ ε Unit}
    (takes : ∀ map key value, map.get? key = some value →
      take key (embed map) = (.ok (), embed (map.remove key)))
    (puts : ∀ other pair, other.get? pair.1 = none →
      other.weight + (Extent.stop pair.1 pair.2 - pair.1) ≤ map.weight →
      put pair (embed other) = (.ok (), embed (other.insert pair.1 pair.2))) :
    (((map.atLeast length).map Prod.fst ++ (map.crossingPieces length).map Prod.fst).forM take >>=
        fun _ => (map.crossingPieces length).forM put) (embed map) =
      (.ok (), embed (map.cut length bound)) := by
  have removed : ((map.behind length).map Prod.fst).forM take (embed map) =
      (.ok (), embed (map.removeAll ((map.behind length).map Prod.fst))) :=
    forM_remove embed takes apart.nodup_behind fun pair mem => (apart.mem_behind.mp mem).1
  have total : (map.removeAll ((map.behind length).map Prod.fst)).weight +
      ((map.behind length).map span).sum = map.weight :=
    weight_removeAll apart.nodup_behind fun pair mem => (apart.mem_behind.mp mem).1
  have kept : ((map.crossingPieces length).map span).sum ≤
      ((map.behind length).map span).sum := by
    rw [behind, map_append, sum_append, crossingPieces]
    cases found : map.crossing? length with
    | none => exact Nat.zero_le _
    | some pair =>
      rcases apart.crossing?_eq_some_iff.mp found with ⟨_, before, reaches⟩
      have stops := Extent.stop_upTo before reaches
      simp only [Option.toList_some, map_cons, map_nil, sum_cons, sum_nil, span, stops]
      omega
  rw [← keys_behind, Attempt.bind_of_ok removed, ← apart.insertAll_crossingPieces inside shrinks]
  refine forM_insert embed puts nodup_crossingPieces ?_ (by omega)
  intro piece isPiece
  rcases apart.mem_crossingPieces.mp isPiece with ⟨old, mem, _, reaches, rfl⟩
  rw [get?_eq_none_iff]
  intro pair stays same
  refine (mem_removeAll.mp stays).2 ?_
  rw [same]
  exact mem_map.mpr ⟨old, apart.mem_behind.mpr ⟨mem, reaches⟩, rfl⟩

end Truncate

end Steps

end Extents

end SortedMap

end Fastdup.Library
