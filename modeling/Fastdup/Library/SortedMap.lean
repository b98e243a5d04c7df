import Mathlib.Algebra.BigOperators.Group.List.Basic
import Mathlib.Algebra.GroupWithZero.Nat
import Mathlib.Data.List.Nodup
import Mathlib.Data.Nat.Basic
import Mathlib.Order.RelClasses

/-!
# Maps as sorted lists

A map is the list of its keys and values in the strict order of the keys, so two maps with the
same content are equal.
-/

namespace Fastdup.Library

open List Option

/-- An association list with increasing keys, so that equal maps are equal lists. -/
structure SortedMap (Key Value : Type) [LT Key] where
  pairs : List (Key × Value)
  sorted : pairs.Pairwise fun left right => left.1 < right.1

namespace SortedMap

variable {Key Value : Type} [LT Key]

instance [DecidableEq Key] [DecidableEq Value] : DecidableEq (SortedMap Key Value) :=
  fun left right => decidable_of_iff (left.pairs = right.pairs) <| by
    cases left
    cases right
    simp

def empty : SortedMap Key Value where
  pairs := []
  sorted := List.Pairwise.nil

theorem ext {left right : SortedMap Key Value} (same : left.pairs = right.pairs) : left =
    right := by
  cases left
  cases right
  cases same
  rfl

section Order

variable [Std.Irrefl (fun left right : Key => left < right)]
  [Trans (fun left right : Key => left < right) (fun left right : Key => left < right)
    (fun left right : Key => left < right)]

theorem eq_of_perm {left right : SortedMap Key Value} (same : left.pairs.Perm right.pairs) :
    left = right := by
  refine ext (same.eq_of_pairwise ?_ left.sorted right.sorted)
  intro first second _ _ below above
  exact absurd (Trans.trans below above : first.1 < first.1) (Std.Irrefl.irrefl _)

/-- Two sorted lists begin in the same way if they agree up to the end of the beginning. -/
theorem take_eq_of_agree {pairs others : List (Key × Value)} {count : ℕ}
    (sorted : pairs.Pairwise fun left right => left.1 < right.1)
    (otherSorted : others.Pairwise fun left right => left.1 < right.1)
    (agree : ∀ pair, (∃ passed ∈ pairs.take count, ¬ passed.1 < pair.1) →
      (pair ∈ pairs ↔ pair ∈ others)) (long : count ≤ pairs.length) :
    others.take count = pairs.take count := by
  induction count generalizing pairs others with
  | zero => rfl
  | succ count ih =>
    cases pairs with
    | nil => simp at long
    | cons pair rest =>
      rw [pairwise_cons] at sorted
      have self : ∀ {key : Key}, ¬ key < key := Std.Irrefl.irrefl _
      have found : pair ∈ others := (agree pair ⟨pair, mem_cons_self, self⟩).mp mem_cons_self
      cases others with
      | nil => cases found
      | cons other later =>
        rw [pairwise_cons] at otherSorted
        have same : other = pair := by
          rcases mem_cons.mp found with same | behind
          · exact same.symm
          · have before := otherSorted.1 pair behind
            have listed : other ∈ pair :: rest :=
              (agree other ⟨pair, mem_cons_self,
                fun above => self (Trans.trans before above : other.1 < other.1)⟩).mpr
                mem_cons_self
            rcases mem_cons.mp listed with same | after
            · exact same
            · have above := sorted.1 other after
              exact absurd (Trans.trans before above : other.1 < other.1) self
        subst same
        rw [take_succ_cons, take_succ_cons,
          ih sorted.2 otherSorted.2 ?_ (Nat.le_of_succ_le_succ long)]
        rintro next ⟨passed, mem, notAfter⟩
        have whole := agree next ⟨passed, mem_cons_of_mem _ mem, notAfter⟩
        -- The head stands in neither of the tails.
        by_cases head : next = other
        · have notLeft : next ∉ rest := fun listed => self (head ▸ sorted.1 next listed)
          have notRight : next ∉ later := fun listed =>
            self (head ▸ otherSorted.1 next listed)
          exact iff_of_false notLeft notRight
        · simpa [head] using whole

end Order

section Get

variable [DecidableEq Key] {map : SortedMap Key Value} {key : Key} {value : Value}

/-- Looks a key up. -/
def get? (map : SortedMap Key Value) (key : Key) : Option Value :=
  (map.pairs.find? fun pair => pair.1 = key).map Prod.snd

/-- Takes a key out. -/
def remove (key : Key) (map : SortedMap Key Value) : SortedMap Key Value where
  pairs := map.pairs.filter fun pair => pair.1 ≠ key
  sorted := map.sorted.filter _

theorem mem_of_get?_eq_some (found : map.get? key = some value) : (key, value) ∈ map.pairs := by
  rw [get?, map_eq_some_iff] at found
  rcases found with ⟨⟨other, stored⟩, found, rfl⟩
  have same : other = key := by simpa using find?_some found
  rw [← same]
  exact mem_of_find?_eq_some found

theorem get?_eq_none_iff : map.get? key = none ↔ ∀ pair ∈ map.pairs, pair.1 ≠ key := by
  simp [get?, find?_eq_none]

theorem mem_keys_iff : key ∈ map.pairs.map Prod.fst ↔ map.get? key ≠ none := by
  rw [Ne, get?_eq_none_iff, List.mem_map]
  push Not
  rfl

theorem pairs_remove : (map.remove key).pairs = map.pairs.filter fun pair => pair.1 ≠ key :=
  rfl

theorem remove_of_get?_eq_none (absent : map.get? key = none) : map.remove key = map := by
  apply ext
  rw [pairs_remove, filter_eq_self]
  intro pair mem
  simpa using get?_eq_none_iff.mp absent pair mem

theorem remove_comm (first second : Key) :
    (map.remove first).remove second = (map.remove second).remove first := by
  apply ext
  simp [pairs_remove, Bool.and_comm]

variable [Std.Irrefl (fun left right : Key => left < right)]

omit [DecidableEq Key] in
theorem keys_nodup (map : SortedMap Key Value) : (map.pairs.map Prod.fst).Nodup := by
  rw [List.Nodup, pairwise_map]
  apply map.sorted.imp
  intro left right before same
  rw [same] at before
  exact Std.Irrefl.irrefl _ before

theorem get?_of_mem (mem : (key, value) ∈ map.pairs) : map.get? key = some value := by
  cases found : map.get? key with
  | none => exact absurd rfl (get?_eq_none_iff.mp found (key, value) mem)
  | some stored =>
    have same := inj_on_of_nodup_map map.keys_nodup (mem_of_get?_eq_some found) mem rfl
    rw [Prod.mk.injEq] at same
    rw [same.2]

theorem mem_pairs_iff : (key, value) ∈ map.pairs ↔ map.get? key = some value :=
  ⟨get?_of_mem, mem_of_get?_eq_some⟩

theorem get?_remove {other : Key} :
    (map.remove key).get? other = if other = key then none else map.get? other := by
  split
  · rename_i same
    rw [get?_eq_none_iff]
    intro pair mem
    rw [pairs_remove, mem_filter, decide_eq_true_eq] at mem
    rw [same]
    exact mem.2
  · rename_i ne
    cases found : map.get? other with
    | none =>
      rw [get?_eq_none_iff] at found ⊢
      intro pair mem
      exact found pair (mem_filter.mp mem).1
    | some stored =>
      apply get?_of_mem
      rw [pairs_remove, mem_filter]
      exact ⟨mem_of_get?_eq_some found, by simpa using ne⟩

theorem get?_of_get?_remove {other : Key} {found : Value}
    (kept : (map.remove key).get? other = some found) : map.get? other = some found := by
  rw [get?_remove] at kept
  split at kept
  · cases kept
  · exact kept

theorem perm_remove (found : map.get? key = some value) :
    map.pairs.Perm ((key, value) :: (map.remove key).pairs) := by
  have mem := mem_of_get?_eq_some found
  rcases append_of_mem mem with ⟨before, after, split⟩
  have keys := map.keys_nodup
  rw [split, map_append, map_cons, nodup_append, nodup_cons] at keys
  have keptBefore : before.filter (fun pair => pair.1 ≠ key) = before := by
    rw [filter_eq_self]
    intro pair inside
    have apart := keys.2.2 pair.1 (mem_map_of_mem inside) key mem_cons_self
    simpa using apart
  have keptAfter : after.filter (fun pair => pair.1 ≠ key) = after := by
    rw [filter_eq_self]
    intro pair inside
    have apart : pair.1 ≠ key := fun same =>
      keys.2.1.1 (mem_map.mpr ⟨pair, inside, same⟩)
    simpa using apart
  rw [pairs_remove, split, filter_append, filter_cons, if_neg (by simp), keptBefore, keptAfter]
  exact perm_middle

theorem sum_remove (weight : Key × Value → ℕ) (found : map.get? key = some value) :
    ((map.remove key).pairs.map weight).sum + weight (key, value) = (map.pairs.map weight).sum := by
  rw [((perm_remove found).map weight).sum_eq, map_cons, sum_cons, Nat.add_comm]

end Get

section Insert

variable [DecidableEq Key] [DecidableLT Key]

/-- Puts a value under a key, in place of the value that was there. -/
def insertPairs (key : Key) (value : Value) : List (Key × Value) → List (Key × Value)
  | [] => [(key, value)]
  | pair :: rest =>
    if key < pair.1 then (key, value) :: pair :: rest
    else if key = pair.1 then (key, value) :: rest
    else pair :: insertPairs key value rest

variable [Std.Irrefl (fun left right : Key => left < right)]
  [Trans (fun left right : Key => left < right) (fun left right : Key => left < right)
    (fun left right : Key => left < right)]

/-- Without the pair that is replaced, the new pair is put in front of the rest. -/
theorem perm_insertPairs {key : Key} {value : Value} {pairs : List (Key × Value)}
    (sorted : pairs.Pairwise fun left right => left.1 < right.1) :
    (insertPairs key value pairs).Perm ((key, value) :: pairs.filter fun pair => pair.1 ≠ key) := by
  induction pairs with
  | nil => simp [insertPairs]
  | cons pair rest ih =>
    rw [pairwise_cons] at sorted
    have keptAll : (∀ other ∈ rest, other.1 ≠ key) →
        rest.filter (fun other => other.1 ≠ key) = rest := by
      intro apart
      rw [filter_eq_self]
      intro other mem
      simpa using apart other mem
    rw [insertPairs, filter_cons]
    split
    · rename_i before
      have ne : pair.1 ≠ key := by
        rintro rfl
        exact Std.Irrefl.irrefl _ before
      rw [if_pos (by simpa using ne), keptAll]
      rintro other mem rfl
      exact Std.Irrefl.irrefl _ (Trans.trans before (sorted.1 other mem))
    · split
      · rename_i same
        rw [if_neg (by simp [same]), keptAll]
        rintro other mem rfl
        have above := sorted.1 other mem
        rw [← same] at above
        exact Std.Irrefl.irrefl _ above
      · rename_i ne
        rw [if_pos (by simpa using Ne.symm ne)]
        exact ((ih sorted.2).cons pair).trans (List.Perm.swap _ _ _)

variable [Std.Trichotomous (fun left right : Key => left < right)]

theorem sorted_insertPairs {key : Key} {value : Value} {pairs : List (Key × Value)}
    (sorted : pairs.Pairwise fun left right => left.1 < right.1) :
    (insertPairs key value pairs).Pairwise fun left right => left.1 < right.1 := by
  induction pairs with
  | nil => simp [insertPairs]
  | cons pair rest ih =>
    have whole := sorted
    rw [pairwise_cons] at sorted
    rw [insertPairs]
    split
    · rename_i before
      refine pairwise_cons.mpr ⟨?_, whole⟩
      intro other mem
      rcases mem_cons.mp mem with rfl | inRest
      · exact before
      · exact Trans.trans before (sorted.1 other inRest)
    · rename_i notBefore
      split
      · rename_i same
        refine pairwise_cons.mpr ⟨?_, sorted.2⟩
        intro other mem
        rw [same]
        exact sorted.1 other mem
      · rename_i ne
        refine pairwise_cons.mpr ⟨?_, ih sorted.2⟩
        intro other mem
        rcases mem_cons.mp ((perm_insertPairs sorted.2).mem_iff.mp mem) with rfl | inRest
        · by_contra notAbove
          exact ne (Std.Trichotomous.trichotomous _ _ notBefore notAbove)
        · exact sorted.1 other (mem_filter.mp inRest).1

/-- Puts a pair at its place, over one with the same key. -/
def insert (key : Key) (value : Value) (map : SortedMap Key Value) : SortedMap Key Value where
  pairs := insertPairs key value map.pairs
  sorted := sorted_insertPairs map.sorted

variable {map : SortedMap Key Value} {key : Key} {value : Value}

theorem perm_insert : (map.insert key value).pairs.Perm ((key, value) :: (map.remove key).pairs) :=
  perm_insertPairs map.sorted

theorem perm_insert_of_get?_eq_none (value : Value) (absent : map.get? key = none) :
    (map.insert key value).pairs.Perm ((key, value) :: map.pairs) := by
  have perm : (map.insert key value).pairs.Perm _ := perm_insert
  rwa [remove_of_get?_eq_none absent] at perm

theorem mem_insert {pair : Key × Value} : pair ∈ (map.insert key value).pairs ↔
      pair = (key, value) ∨ pair ∈ map.pairs ∧ pair.1 ≠ key := by
  rw [perm_insert.mem_iff, mem_cons, pairs_remove, mem_filter, decide_eq_true_eq]

theorem get?_insert {other : Key} :
    (map.insert key value).get? other = if other = key then some value else map.get? other := by
  split
  · rename_i same
    subst same
    exact get?_of_mem (mem_insert.mpr (.inl rfl))
  · rename_i ne
    cases found : map.get? other with
    | none =>
      rw [get?_eq_none_iff] at found ⊢
      intro pair mem
      rcases mem_insert.mp mem with rfl | ⟨old, _⟩
      · exact Ne.symm ne
      · exact found pair old
    | some stored =>
      exact get?_of_mem (mem_insert.mpr (.inr ⟨mem_of_get?_eq_some found, ne⟩))

theorem get?_insert_eq_some_iff {other : Key} {found : Value} :
    (map.insert key value).get? other = some found ↔
      other = key ∧ found = value ∨ other ≠ key ∧ map.get? other = some found := by
  rw [get?_insert]
  split <;> simp_all [eq_comm]

theorem get?_insert_eq_none_iff {other : Key} :
    (map.insert key value).get? other = none ↔ other ≠ key ∧ map.get? other = none := by
  rw [get?_insert]
  split <;> simp_all

theorem sum_insert (weight : Key × Value → ℕ) : ((map.insert key value).pairs.map weight).sum +
        (map.get? key).elim 0 (fun old => weight (key, old)) =
      (map.pairs.map weight).sum + weight (key, value) := by
  rw [(perm_insert.map weight).sum_eq, map_cons, sum_cons]
  cases found : map.get? key with
  | none =>
    rw [remove_of_get?_eq_none found, elim_none]
    omega
  | some old =>
    have rest := sum_remove weight found
    rw [elim_some]
    omega

theorem length_insert : (map.insert key value).pairs.length =
    if (map.get? key).isSome then map.pairs.length else map.pairs.length + 1 := by
  rw [perm_insert.length_eq, length_cons]
  cases found : map.get? key with
  | none =>
    rw [remove_of_get?_eq_none found]
    rfl
  | some old =>
    rw [(perm_remove found).length_eq]
    rfl

end Insert

section MapValues

variable [DecidableEq Key]

def mapValues (change : Key → Value → Value) (map : SortedMap Key Value) : SortedMap Key Value where
  pairs := map.pairs.map fun pair => (pair.1, change pair.1 pair.2)
  sorted := List.pairwise_map.mpr map.sorted

theorem get?_mapValues {change : Key → Value → Value} {map : SortedMap Key Value} (key : Key) :
    (map.mapValues change).get? key = (map.get? key).map (change key) := by
  rw [get?, get?, mapValues, List.find?_map, Option.map_map, Option.map_map]
  refine Option.map_congr ?_
  intro pair found
  have same : pair.1 = key := by simpa using List.find?_some found
  simp [same]

end MapValues

end SortedMap

end Fastdup.Library
