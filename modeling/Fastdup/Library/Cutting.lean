import Mathlib.Algebra.GroupWithZero.Nat
import Mathlib.Data.List.Basic

/-!
# Cutting a sorted list into runs

A run begins at every marked key, and where the run before it would become too long or too heavy.
Whether a key is marked depends on the key alone, so what lies between two marked keys is cut in
the same way in every list.
-/

namespace Fastdup.Library

open List

/-- How a sorted run of records is cut into pieces: by key, by count and by weight. -/
structure Cutting (α κ : Type) where
  key : α → κ
  before : κ → κ → Bool
  starts : κ → Bool
  weight : α → ℕ
  longest : ℕ
  heaviest : ℕ
  asymm : ∀ first second, before first second → ¬ before second first
  positive : 0 < longest

namespace Cutting

variable {α κ : Type} (cutting : Cutting α κ)

/-- Cuts where a key may start, and where the run is full. -/
def scan (run : List α) (total : ℕ) : List α → List (List α)
  | [] => [run]
  | item :: rest =>
    if cutting.longest ≤ run.length ∨ cutting.heaviest < total + cutting.weight item ∨
        cutting.starts (cutting.key item) then
      run :: scan [item] (cutting.weight item) rest
    else scan (run ++ [item]) (total + cutting.weight item) rest

def runs : List α → List (List α)
  | [] => []
  | item :: rest => cutting.scan [item] (cutting.weight item) rest

/-- Not too long, and too heavy only as a single item. -/
def Bounded (run : List α) : Prop :=
  run.length ≤ cutting.longest ∧
    (run.length = 1 ∨ (run.map cutting.weight).sum ≤ cutting.heaviest)

def Sorted (items : List α) : Prop :=
  items.Pairwise fun first second => cutting.before (cutting.key first) (cutting.key second)

/-- Whether an item lies before a bound; without one, whether `free` says so. -/
def below (free : Bool) (bound : Option κ) (item : α) : Bool :=
  bound.elim free fun place => cutting.before (cutting.key item) place

/-- The items from one key on and before another; without a key, from the first or to the last. -/
def interval (low high : Option κ) (items : List α) : List α :=
  (items.filter fun item => ! cutting.below false low item).filter (cutting.below true high)

/-- The bounds of an interval are marked keys of the list, unless they are ends. -/
structure Spans (low high : Option κ) (items : List α) : Prop where
  fromLow : ∀ place ∈ low, place ∈ items.map cutting.key ∧ cutting.starts place
  toHigh : ∀ place ∈ high, place ∈ items.map cutting.key ∧ cutting.starts place
  ordered : ∀ first ∈ low, ∀ last ∈ high, cutting.before first last

/-- Lists that agree on an interval have its runs in common; a run in it that only the second list
has lies in it as a whole and shows that they do not agree. -/
structure Local (low high : Option κ) (left right : List α) : Prop where
  same : cutting.interval low high left = cutting.interval low high right →
    (∃ front back,
      cutting.runs left = front ++ cutting.runs (cutting.interval low high left) ++ back) ∧
    ∃ front back,
      cutting.runs right = front ++ cutting.runs (cutting.interval low high left) ++ back
  changed : ∀ run ∈ cutting.runs right, run ∉ cutting.runs left → ∀ item ∈ run,
    item ∈ cutting.interval low high right → run ⊆ cutting.interval low high right ∧
      cutting.interval low high left ≠ cutting.interval low high right

variable {cutting} {items left right run : List α} {total : ℕ} {item : α}

theorem flatten_scan : (cutting.scan run total items).flatten = run ++ items := by
  induction items generalizing run total with
  | nil => simp [scan]
  | cons item rest ih =>
    rw [scan]
    split <;> simp [ih]

theorem mem_of_mem_runs (mem : run ∈ cutting.runs items) (inside : item ∈ run) : item ∈ items := by
  have within := mem_flatten_of_mem mem inside
  cases items with
  | nil => exact within
  | cons first rest => rwa [runs, flatten_scan] at within

theorem scan_append (marked : cutting.starts (cutting.key item)) :
    cutting.scan run total (left ++ item :: right) =
      cutting.scan run total left ++ cutting.runs (item :: right) := by
  induction left generalizing run total with
  | nil => simp [scan, runs, marked]
  | cons first rest ih =>
    rw [cons_append, scan, scan]
    split <;> simp [ih]

/-- A list is cut at every marked key. -/
theorem runs_append (marked : cutting.starts (cutting.key item)) :
    cutting.runs (left ++ item :: right) = cutting.runs left ++ cutting.runs (item :: right) := by
  cases left with
  | nil => rfl
  | cons first rest => exact scan_append marked

theorem scan_bounded (bounded : cutting.Bounded run) :
    ∀ other ∈ cutting.scan run (run.map cutting.weight).sum items, cutting.Bounded other := by
  induction items generalizing run with
  | nil => simpa [scan] using bounded
  | cons item rest ih =>
    rw [scan]
    split
    · have later := @ih [item] ⟨cutting.positive, .inl rfl⟩
      simpa using ⟨bounded, later⟩
    · have later := @ih (run ++ [item]) ⟨by simp; omega, .inr (by simp; omega)⟩
      simpa using later

theorem runs_bounded : ∀ run ∈ cutting.runs items, cutting.Bounded run := by
  cases items with
  | nil => simp [runs]
  | cons item rest =>
    simpa [runs] using @scan_bounded _ _ _ rest [item] ⟨cutting.positive, .inl rfl⟩

variable {low high : Option κ}

theorem runs_cut (sorted : cutting.Sorted items) {place : κ}
    (marked : place ∈ items.map cutting.key ∧ cutting.starts place) :
    cutting.runs items =
      cutting.runs (items.filter fun item => cutting.before (cutting.key item) place) ++
        cutting.runs (items.filter fun item => ! cutting.before (cutting.key item) place) := by
  rcases marked with ⟨mem, marked⟩
  rcases mem_map.mp mem with ⟨item, inside, rfl⟩
  rcases append_of_mem inside with ⟨left, right, rfl⟩
  rcases pairwise_append.mp sorted with ⟨_, later, across⟩
  have self := fun self => cutting.asymm (cutting.key item) _ self self
  have front := fun other mem => across other mem item mem_cons_self
  have back := fun other mem => cutting.asymm _ _ ((pairwise_cons.mp later).1 other mem)
  rw [filter_append, filter_append, filter_cons_of_neg (by simpa using self),
    filter_cons_of_pos (by simpa using self), filter_eq_self.mpr front,
    filter_eq_nil_iff.mpr back, filter_eq_nil_iff.mpr (by simpa using front),
    filter_eq_self.mpr (by simpa using back), append_nil]
  exact runs_append marked

/-- What lies between two marked keys is cut by itself. -/
theorem runs_interval (sorted : cutting.Sorted items) (spans : cutting.Spans low high items) :
    ∃ front back,
      cutting.runs items = cutting.runs front ++ cutting.runs (cutting.interval low high items) ++
        cutting.runs back ∧
      ∀ item ∈ front ++ back, item ∉ cutting.interval low high items := by
  let upper := items.filter fun item => ! cutting.below false low item
  have sortedUpper : cutting.Sorted upper := sorted.filter _
  refine ⟨items.filter (cutting.below false low),
    upper.filter fun item => ! cutting.below true high item, ?_, ?_⟩
  · have lower : cutting.runs items =
        cutting.runs (items.filter (cutting.below false low)) ++ cutting.runs upper := by
      cases low with
      | none =>
        rw [filter_eq_nil_iff.mpr (by simp [below])]
        simp [upper, below, runs]
      | some place => exact runs_cut sorted (spans.fromLow place rfl)
    rw [lower, append_assoc, interval]
    congr 1
    cases high with
    | none => simp [upper, below, runs]
    | some place =>
      rcases spans.toHigh place rfl with ⟨mem, marked⟩
      rcases mem_map.mp mem with ⟨item, inside, rfl⟩
      have above : item ∈ upper := by
        refine mem_filter.mpr ⟨inside, ?_⟩
        cases low with
        | none => rfl
        | some first => simpa [below] using cutting.asymm _ _ (spans.ordered first rfl _ rfl)
      exact runs_cut sortedUpper ⟨mem_map_of_mem above, marked⟩
  · simp only [interval, upper, mem_append, mem_filter]
    grind

theorem local_of_spans (sortedLeft : cutting.Sorted left) (sortedRight : cutting.Sorted right)
    (spansLeft : cutting.Spans low high left) (spansRight : cutting.Spans low high right) :
    cutting.Local low high left right := by
  rcases runs_interval sortedLeft spansLeft with ⟨front, back, cutLeft, _⟩
  rcases runs_interval sortedRight spansRight with ⟨front', back', cutRight, outside⟩
  refine ⟨fun same => ⟨⟨_, _, cutLeft⟩, _, _, same ▸ cutRight⟩, ?_⟩
  intro run mem fresh item inRun inside
  have within : run ∈ cutting.runs (cutting.interval low high right) := by
    rw [cutRight, mem_append, mem_append] at mem
    rcases mem with (early | within) | late
    · exact absurd inside (outside item (mem_append_left _ (mem_of_mem_runs early inRun)))
    · exact within
    · exact absurd inside (outside item (mem_append_right _ (mem_of_mem_runs late inRun)))
  refine ⟨fun other => mem_of_mem_runs within, fun same => fresh ?_⟩
  rw [cutLeft, same]
  exact mem_append_left _ (mem_append_right _ within)

end Cutting

end Fastdup.Library
