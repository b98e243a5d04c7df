import Mathlib.Data.List.Flatten
import Mathlib.Data.List.Sort

/-!
# Blocks of a sequence

A sequence without repetition that is cut into blocks can be put together again from its blocks
in any order: sorting them by the position of their first item gives the cut back.
-/

namespace Fastdup.Library.Blocks

open List Nat

variable {α β : Type} [DecidableEq α] {content : β → List α}

/-- The position of an item, counted from 1; an absent item comes before all others. -/
def ordinal (order : List α) (item : α) : ℕ :=
  if item ∈ order then order.idxOf item + 1 else 0

/-- The place of a block is that of its first element. -/
def blockOrdinal (content : β → List α) (order : List α) (block : β) : ℕ :=
  match content block with
  | [] => 0
  | first :: _ => ordinal order first

def sortBlocks (content : β → List α) (order : List α) (blocks : List β) : List β :=
  blocks.mergeSort fun left right =>
    decide (blockOrdinal content order left ≤ blockOrdinal content order right)

/-- The first item of a nonempty block stands right after what comes before the block. -/
theorem blockOrdinal_of_append {before after : List α} {block : β}
    (occupied : content block ≠ []) (nodup : (before ++ (content block ++ after)).Nodup) :
    blockOrdinal content (before ++ (content block ++ after)) block = before.length + 1 := by
  obtain ⟨first, rest, split⟩ := List.exists_cons_of_ne_nil occupied
  have absent : first ∉ before := by
    intro found
    have apart := List.disjoint_of_nodup_append nodup found
    exact apart (by simp [split])
  have mem : first ∈ before ++ (content block ++ after) := by simp [split]
  simp only [blockOrdinal, split, ordinal] at mem ⊢
  rw [if_pos mem, List.idxOf_append_of_notMem absent, List.cons_append, List.idxOf_cons_self,
    Nat.add_zero]

theorem pairwise_blockOrdinal {before : List α} {blocks : List β}
    (occupied : ∀ block ∈ blocks, content block ≠ [])
    (nodup : (before ++ blocks.flatMap content).Nodup) : blocks.Pairwise fun left right =>
      blockOrdinal content (before ++ blocks.flatMap content) left <
        blockOrdinal content (before ++ blocks.flatMap content) right := by
  have later : ∀ (blocks : List β) (before : List α), (∀ block ∈ blocks, content block ≠ []) →
      (before ++ blocks.flatMap content).Nodup → ∀ block ∈ blocks,
        before.length < blockOrdinal content (before ++ blocks.flatMap content) block := by
    intro blocks
    induction blocks with
    | nil => simp
    | cons head tail ih =>
      intro before occupied nodup block mem
      rw [flatMap_cons] at nodup ⊢
      rcases mem_cons.mp mem with rfl | inTail
      · rw [blockOrdinal_of_append (occupied _ mem_cons_self) nodup]
        omega
      · rw [← append_assoc] at nodup ⊢
        have position := ih (before ++ content head)
          (fun other inside => occupied other (mem_cons_of_mem _ inside)) nodup block inTail
        rw [length_append] at position
        omega
  induction blocks generalizing before with
  | nil => exact List.Pairwise.nil
  | cons head tail ih =>
    have tailOccupied : ∀ block ∈ tail, content block ≠ [] :=
      fun block inside => occupied block (mem_cons_of_mem _ inside)
    refine List.Pairwise.cons ?_ ?_
    · intro block inTail
      rw [flatMap_cons] at nodup ⊢
      rw [blockOrdinal_of_append (occupied head mem_cons_self) nodup]
      rw [← append_assoc] at nodup ⊢
      have position := later tail (before ++ content head) tailOccupied nodup block inTail
      have filled := length_pos_iff.mpr (occupied head mem_cons_self)
      rw [length_append] at position
      omega
    · rw [flatMap_cons, ← append_assoc] at nodup ⊢
      exact ih tailOccupied nodup

theorem sortBlocks_of_perm {scattered blocks : List β}
    (occupied : ∀ block ∈ blocks, content block ≠ [])
    (nodup : (blocks.flatMap content).Nodup) (perm : scattered.Perm blocks) :
    sortBlocks content (blocks.flatMap content) scattered = blocks := by
  let position := blockOrdinal content (blocks.flatMap content)
  have growing : blocks.Pairwise fun left right => position left < position right :=
    @pairwise_blockOrdinal _ _ _ content [] blocks occupied nodup
  have sorted : (sortBlocks content (blocks.flatMap content) scattered).Pairwise
      fun left right => position left ≤ position right := by
    have pairwise := @List.pairwise_mergeSort β
      (fun left right => decide (position left ≤ position right))
      (fun _ _ _ first second => by
        rw [decide_eq_true_eq] at first second ⊢
        exact first.trans second)
      (fun left right => by
        rw [Bool.or_eq_true, decide_eq_true_eq, decide_eq_true_eq]
        exact le_total _ _)
      scattered
    exact pairwise.imp of_decide_eq_true
  have apart : ∀ left ∈ blocks, ∀ right ∈ blocks, position left = position right →
    left = right := by
    have forward : blocks.Pairwise fun left right => position left = position right →
      left = right := growing.imp fun below same => absurd same (ne_of_lt below)
    have backward : blocks.Pairwise
        (flip fun left right => position left = position right → left = right) :=
      growing.imp fun below same => absurd same.symm (Nat.ne_of_lt below)
    intro left inLeft right inRight
    exact List.Pairwise.forall_of_forall_of_flip (fun _ _ _ => rfl) forward backward inLeft inRight
  have samePerm : (sortBlocks content (blocks.flatMap content) scattered).Perm blocks :=
    (mergeSort_perm _ _).trans perm
  refine List.Perm.eq_of_pairwise ?_ sorted (growing.imp le_of_lt) samePerm
  intro left right inSorted inBlocks below above
  exact apart left (samePerm.mem_iff.mp inSorted) right inBlocks (le_antisymm below above)

end Fastdup.Library.Blocks
