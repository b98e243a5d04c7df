import Fastdup.Store.Maintenance.Pool
import Mathlib.Data.List.AList

/-!
# Planning an offline collection

One pass over the verified pool sorts every Container into those without a required Chunk, those
with some and those with nothing else. A Chunk is required when it is online or when a stored
dependent Record names it as its Base. The Chunks that the mixed Containers alone cover are then
to be written again, and the mixed Containers become victims when that pays.
-/

namespace Fastdup.Store.Maintenance

open Library Checked Format List AList

def GC_REPLACEMENT_LOGICAL_TARGET_BYTES : ℕ := 48 * 1024 * 1024
def GC_REPLACEMENT_CHUNK_LIMIT : ℕ := 32768
def GC_COMPRESSION_REGION_BYTES : ℕ := 512 * 1024
def GC_RAW_CHUNK_PHYSICAL_OVERHEAD_UPPER_BYTES : ℕ := 383
def GC_CONTAINER_FIXED_PHYSICAL_OVERHEAD_UPPER_BYTES : ℕ := 12351 + 8192

/-- A map from Chunks to their logical lengths. -/
abbrev Coverage := AList (fun _ : ChunkId => ℕ)

/-- The protected Chunks and their expected lengths. -/
abbrev OnlineChunks := ChunkId → Option ℕ

def Coverage.count (coverage : Coverage) : ℕ :=
  coverage.entries.length

def Coverage.logicalBytes (coverage : Coverage) : Except MaintenanceError ℕ :=
  coverage.entries.foldlM (fun total entry => checkedAdd .arithmeticOverflow total entry.2) 0

/-- Inserts the Chunks in order; a later length replaces an earlier one. -/
def Coverage.extend (coverage : Coverage) (chunks : List ChunkCopy) : Coverage :=
  chunks.foldl (fun coverage chunk => coverage.insert chunk.1 chunk.2) coverage

/-- The entries of Chunks that are not in the list. -/
def Coverage.without (coverage : Coverage) (chunks : List ChunkId) : Coverage :=
  chunks.foldl (fun coverage chunk => coverage.erase chunk) coverage

/-- How many Containers the replacement may take. -/
def replacementContainerCountUpperBound (chunks : Coverage) : Except MaintenanceError ℕ :=
  if chunks.entries = [] then .ok 0
  else do
    let logicalBytes ← chunks.logicalBytes
    let byteClosureFloor ← checkedSub .arithmeticOverflow GC_REPLACEMENT_LOGICAL_TARGET_BYTES
      MAX_LOGICAL_CHUNK_BYTES
    let closures ← checkedAdd .arithmeticOverflow (logicalBytes / byteClosureFloor)
      (chunks.count / GC_REPLACEMENT_CHUNK_LIMIT)
    checkedAdd .arithmeticOverflow closures 1

def checkedMul (left right : ℕ) : Except MaintenanceError ℕ :=
  if left * right < 2 ^ 64 then .ok (left * right) else .error .arithmeticOverflow

/-- How many bytes the replacement may take. -/
def replacementFileBytesUpperBound (chunks : Coverage) : Except MaintenanceError ℕ := do
  let logicalBytes ← chunks.logicalBytes
  let containerCount ← replacementContainerCountUpperBound chunks
  let overhead ← checkedMul chunks.count GC_RAW_CHUNK_PHYSICAL_OVERHEAD_UPPER_BYTES
  let total ← checkedAdd .arithmeticOverflow logicalBytes overhead
  let fixed ← checkedMul containerCount GC_CONTAINER_FIXED_PHYSICAL_OVERHEAD_UPPER_BYTES
  checkedAdd .arithmeticOverflow total fixed

/-- The plan of an offline collection. -/
structure ContainerGcInventory where
  reclaimable : List SealedContainer
  reclaimableBytes : ℕ
  estimatedReclaimableBytes : ℕ
  compactionVictims : List SealedContainer
  compactionVictimBytes : ℕ
  replacementChunks : Coverage
  partiallyLiveContainers : ℕ

/-- The pass that sorts Containers by what is live in them. -/
structure Classification where
  reclaimable : List SealedContainer
  reclaimableBytes : ℕ
  partiallyLiveContainers : ℕ
  partials : List SealedContainer
  partialCoverage : Coverage
  retainedCoverage : List ChunkId

def Classification.initial : Classification where
  reclaimable := []
  reclaimableBytes := 0
  partiallyLiveContainers := 0
  partials := []
  partialCoverage := ∅
  retainedCoverage := []

/-- Every Base named by a stored dependent Record; sorted and without repetitions in the source,
which only searches it. -/
def storedDependentBases (pool : Pool) : List ChunkId :=
  pool.flatMap fun container => container.dependencies.map Prod.fst

section Planning

variable (onlineChunks : OnlineChunks) (storedBases : List ChunkId)

/-- Whether a Chunk is live or the Base of a stored record. -/
def requiredChunk (chunk : ChunkCopy) : Except MaintenanceError Bool :=
  match onlineChunks chunk.1 with
  | some expected =>
    if chunk.2 ≠ expected then
      .error (.onlineChunkLengthMismatch chunk.1 expected chunk.2)
    else .ok true
  | none => .ok (decide (chunk.1 ∈ storedBases))

/-- The Chunks of a Container that must be kept. -/
def liveChunks : List ChunkCopy → Except MaintenanceError (List ChunkCopy)
  | [] => .ok []
  | chunk :: rest => do
      let required ← requiredChunk onlineChunks storedBases chunk
      let live ← liveChunks rest
      pure (if required then chunk :: live else live)

/-- Reclaimable, kept as it is, or partially live. -/
def classifyContainer (container : SealedContainer) (state : Classification) :
    Except MaintenanceError Classification := do
  let live ← liveChunks onlineChunks storedBases container.chunks
  if live = [] then do
    let reclaimableBytes ← checkedAdd .arithmeticOverflow state.reclaimableBytes
      container.fileLength
    pure { state with reclaimable := state.reclaimable ++ [container], reclaimableBytes }
  else if live.length < container.chunks.length then do
    let partiallyLiveContainers ← checkedAdd .arithmeticOverflow state.partiallyLiveContainers 1
    pure { state with partiallyLiveContainers, partials := state.partials ++ [container],
                      partialCoverage := state.partialCoverage.extend live }
  else
    pure { state with retainedCoverage := state.retainedCoverage ++ live.map Prod.fst }

/-- Decodes a published Container; its dependent Records need their Bases. -/
def decodePublished (pool : Pool) (container : SealedContainer) : Except MaintenanceError Unit :=
  require (¬ ∀ base ∈ container.dependencies, pool.HasIndependent base) .missingBase

/-- A Container is decoded before it is classified. -/
def visitContainer (pool : Pool) (state : Classification) (container : SealedContainer) :
    Except MaintenanceError Classification := do
  decodePublished pool container
  require (∃ base ∈ container.dependencies, base.1 ∉ storedBases) .publishVerificationMismatch
  classifyContainer onlineChunks storedBases container state

/-- Turns the mixed Containers into victims when nothing has to be written for them, or fewer
Containers than they are. -/
def chooseVictims (state : Classification) : Except MaintenanceError ContainerGcInventory := do
  let replacementChunks := state.partialCoverage.without state.retainedCoverage
  let estimated ← replacementContainerCountUpperBound replacementChunks
  if replacementChunks.entries = [] ∨
    (2 ≤ state.partials.length ∧ estimated < state.partials.length)
  then do
    let compactionVictimBytes ← state.partials.foldlM
      (fun total container => checkedAdd .arithmeticOverflow total container.fileLength) 0
    let replacementUpper ← replacementFileBytesUpperBound replacementChunks
    let estimatedReclaimableBytes ← checkedAdd .arithmeticOverflow state.reclaimableBytes
      (compactionVictimBytes - replacementUpper)
    pure { reclaimable := state.reclaimable, reclaimableBytes := state.reclaimableBytes,
           estimatedReclaimableBytes, compactionVictims := state.partials, compactionVictimBytes,
           replacementChunks, partiallyLiveContainers := state.partiallyLiveContainers }
  else do
    let replacementUpper ← replacementFileBytesUpperBound ∅
    let estimatedReclaimableBytes ← checkedAdd .arithmeticOverflow state.reclaimableBytes
      (0 - replacementUpper)
    pure { reclaimable := state.reclaimable, reclaimableBytes := state.reclaimableBytes,
           estimatedReclaimableBytes, compactionVictims := [], compactionVictimBytes := 0,
           replacementChunks := ∅, partiallyLiveContainers := state.partiallyLiveContainers }

end Planning

/-- Classifies the pool and chooses what to give up. -/
def planContainerGc (onlineChunks : OnlineChunks) (pool : Pool) :
    Except MaintenanceError ContainerGcInventory := do
  let storedBases := storedDependentBases pool
  let state ← pool.foldlM (visitContainer onlineChunks storedBases pool) Classification.initial
  chooseVictims state

/-- Every length is that of a stored copy. -/
abbrev Coverage.StoredIn (coverage : Coverage) (pool : Pool) : Prop :=
  ∀ chunk length, coverage.lookup chunk = some length → pool.Stores (chunk, length)

section Coverage

variable {coverage : Coverage} {chunks : List ChunkCopy} {erased : List ChunkId} {chunk : ChunkId}
  {length : ℕ}

theorem Coverage.lookup_extend (found : (coverage.extend chunks).lookup chunk = some length) :
    (chunk, length) ∈ chunks ∨ coverage.lookup chunk = some length := by
  induction chunks generalizing coverage with
  | nil => exact .inr found
  | cons first rest ih =>
    rcases ih found with later | before
    · exact .inl (mem_cons_of_mem first later)
    · by_cases same : chunk = first.1
      · subst same
        rw [lookup_insert, Option.some.injEq] at before
        subst before
        exact .inl mem_cons_self
      · rw [lookup_insert_ne same] at before
        exact .inr before

theorem Coverage.mem_extend :
    chunk ∈ coverage.extend chunks ↔ chunk ∈ coverage ∨ chunk ∈ chunks.map Prod.fst := by
  induction chunks generalizing coverage with
  | nil => simp [Coverage.extend]
  | cons first rest ih =>
    have step : chunk ∈ coverage.extend (first :: rest) ↔
        chunk ∈ Coverage.extend (coverage.insert first.1 first.2) rest := Iff.rfl
    rw [step, ih, mem_insert, map_cons, mem_cons, or_assoc, or_left_comm]

theorem Coverage.lookup_without (kept : chunk ∉ erased) :
    (coverage.without erased).lookup chunk = coverage.lookup chunk := by
  induction erased generalizing coverage with
  | nil => rfl
  | cons first rest ih =>
    rw [mem_cons, not_or] at kept
    have step : coverage.without (first :: rest) = Coverage.without (coverage.erase first) rest :=
      rfl
    rw [step, ih kept.2, lookup_erase_ne kept.1]

theorem Coverage.mem_without :
    chunk ∈ coverage.without erased ↔ chunk ∈ coverage ∧ chunk ∉ erased := by
  induction erased generalizing coverage with
  | nil => simp [Coverage.without]
  | cons first rest ih =>
    have step : coverage.without (first :: rest) = Coverage.without (coverage.erase first) rest :=
      rfl
    rw [step, ih, mem_erase, mem_cons, not_or]
    constructor
    · rintro ⟨⟨apart, mem⟩, later⟩
      exact ⟨mem, apart, later⟩
    · rintro ⟨mem, apart, later⟩
      exact ⟨⟨apart, mem⟩, later⟩

end Coverage

/-- The Chunk is online or the Base of a stored dependent Record. -/
def Required (onlineChunks : OnlineChunks) (storedBases : List ChunkId) (chunk : ChunkId) : Prop :=
  (onlineChunks chunk).isSome ∨ chunk ∈ storedBases

instance (onlineChunks : OnlineChunks) (storedBases : List ChunkId) (chunk : ChunkId) :
    Decidable (Required onlineChunks storedBases chunk) :=
  inferInstanceAs (Decidable (_ ∨ _))

/-- Nothing in the Container is needed. -/
def Unreachable (onlineChunks : OnlineChunks) (storedBases : List ChunkId)
    (container : SealedContainer) : Prop :=
  ∀ chunk ∈ container.chunks, ¬ Required onlineChunks storedBases chunk.1

def FullyLive (onlineChunks : OnlineChunks) (storedBases : List ChunkId)
    (container : SealedContainer) : Prop :=
  container.chunks ≠ [] ∧ ∀ chunk ∈ container.chunks, Required onlineChunks storedBases chunk.1

instance (onlineChunks : OnlineChunks) (storedBases : List ChunkId) (container : SealedContainer) :
    Decidable (FullyLive onlineChunks storedBases container) :=
  inferInstanceAs (Decidable (_ ∧ _))

def PartiallyLive (onlineChunks : OnlineChunks) (storedBases : List ChunkId)
    (container : SealedContainer) : Prop :=
  (∃ chunk ∈ container.chunks, Required onlineChunks storedBases chunk.1) ∧
    ∃ chunk ∈ container.chunks, ¬ Required onlineChunks storedBases chunk.1

variable {inventory : ContainerGcInventory}

section Passes

variable {onlineChunks : OnlineChunks} {storedBases : List ChunkId} {pool visited : Pool}
  {container : SealedContainer} {state next : Classification}

theorem liveness_cases (onlineChunks : OnlineChunks) (storedBases : List ChunkId)
    (container : SealedContainer) : Unreachable onlineChunks storedBases container ∨
      PartiallyLive onlineChunks storedBases container ∨
      FullyLive onlineChunks storedBases container := by
  by_cases unreachable : Unreachable onlineChunks storedBases container
  · exact .inl unreachable
  · have some : ∃ chunk ∈ container.chunks, Required onlineChunks storedBases chunk.1 := by
      unfold Unreachable at unreachable
      push Not at unreachable
      exact unreachable
    by_cases all : ∀ chunk ∈ container.chunks, Required onlineChunks storedBases chunk.1
    · rcases some with ⟨chunk, mem, _⟩
      exact .inr (.inr ⟨ne_nil_of_mem mem, all⟩)
    · push Not at all
      exact .inr (.inl ⟨some, all⟩)

theorem requiredChunk_eq_ok {chunk : ChunkCopy} {required : Bool}
    (checked : requiredChunk onlineChunks storedBases chunk = .ok required) :
    (required = true ↔ Required onlineChunks storedBases chunk.1) ∧
      ∀ expected, onlineChunks chunk.1 = some expected → chunk.2 = expected := by
  unfold requiredChunk at checked
  unfold Required
  cases online : onlineChunks chunk.1 with
  | some expected =>
    rw [online] at checked
    simp only at checked
    split at checked
    · cases checked
    · rename_i same
      cases checked
      simp only [Option.isSome_some, true_or, Option.some.injEq]
      exact ⟨trivial, fun other equal => equal ▸ not_not.mp same⟩
  | none =>
    rw [online] at checked
    cases checked
    simp

theorem liveChunks_eq_ok {chunks live : List ChunkCopy}
    (checked : liveChunks onlineChunks storedBases chunks = .ok live) :
    live = chunks.filter (fun chunk => decide (Required onlineChunks storedBases chunk.1)) := by
  induction chunks generalizing live with
  | nil =>
    cases checked
    rfl
  | cons chunk rest ih =>
    simp only [liveChunks, bind_ok, pure_ok] at checked
    rcases checked with ⟨required, checkedFirst, later, checkedRest, rfl⟩
    have first := (requiredChunk_eq_ok checkedFirst).1
    rw [filter_cons, ← ih checkedRest]
    by_cases needed : Required onlineChunks storedBases chunk.1
    · rw [if_pos (first.mpr needed), if_pos (decide_eq_true needed)]
    · have dropped : ¬ (required = true) := fun kept => needed (first.mp kept)
      rw [if_neg dropped, if_neg (by simpa using needed)]

/-- The invariant of the pass, over the Containers it has visited. -/
structure Classified (onlineChunks : OnlineChunks) (storedBases : List ChunkId) (visited : Pool)
    (state : Classification) : Prop where
  reclaimable : ∀ container, container ∈ state.reclaimable ↔
    container ∈ visited ∧ Unreachable onlineChunks storedBases container
  partials : ∀ container, container ∈ state.partials ↔
    container ∈ visited ∧ PartiallyLive onlineChunks storedBases container
  covered : ∀ chunk, chunk ∈ state.partialCoverage ↔
    Required onlineChunks storedBases chunk ∧ ∃ container ∈ visited,
      PartiallyLive onlineChunks storedBases container ∧ ∃ length,
        (chunk, length) ∈ container.chunks
  lengths : ∀ chunk length, state.partialCoverage.lookup chunk = some length →
    ∃ container ∈ visited, (chunk, length) ∈ container.chunks
  retained : ∀ chunk, chunk ∈ state.retainedCoverage ↔ ∃ container ∈ visited,
    FullyLive onlineChunks storedBases container ∧ ∃ length, (chunk, length) ∈ container.chunks

theorem classified_initial : Classified onlineChunks storedBases [] Classification.initial where
  reclaimable := by simp [Classification.initial]
  partials := by simp [Classification.initial]
  covered := by simp [Classification.initial, notMem_empty]
  lengths := by simp [Classification.initial, lookup_empty]
  retained := by simp [Classification.initial]

theorem Unreachable.not_partiallyLive
    (unreachable : Unreachable onlineChunks storedBases container) :
    ¬ PartiallyLive onlineChunks storedBases container := by
  rintro ⟨⟨chunk, mem, required⟩, _⟩
  exact unreachable chunk mem required

theorem Unreachable.not_fullyLive (unreachable : Unreachable onlineChunks storedBases container) :
    ¬ FullyLive onlineChunks storedBases container := by
  rintro ⟨occupied, all⟩
  rcases exists_mem_of_ne_nil _ occupied with ⟨chunk, mem⟩
  exact unreachable chunk mem (all chunk mem)

theorem PartiallyLive.not_unreachable (mixed : PartiallyLive onlineChunks storedBases container) :
    ¬ Unreachable onlineChunks storedBases container :=
  fun unreachable => unreachable.not_partiallyLive mixed

theorem PartiallyLive.not_fullyLive (mixed : PartiallyLive onlineChunks storedBases container) :
    ¬ FullyLive onlineChunks storedBases container := by
  rintro ⟨_, all⟩
  rcases mixed.2 with ⟨chunk, mem, unneeded⟩
  exact unneeded (all chunk mem)

theorem classifyContainer_cases
    (stepped : classifyContainer onlineChunks storedBases container state = .ok next) :
    (Unreachable onlineChunks storedBases container ∧
      ∃ bytes, next = { state with reclaimable := state.reclaimable ++ [container],
                                   reclaimableBytes := bytes }) ∨
    (PartiallyLive onlineChunks storedBases container ∧
      ∃ count, next = { state with partiallyLiveContainers := count,
                                   partials := state.partials ++ [container],
                                   partialCoverage := state.partialCoverage.extend
                                     (container.chunks.filter fun chunk =>
                                       decide (Required onlineChunks storedBases chunk.1)) }) ∨
    (FullyLive onlineChunks storedBases container ∧ next = { state with retainedCoverage :=
                            state.retainedCoverage ++ container.chunks.map Prod.fst }) := by
  simp only [classifyContainer, bind_ok] at stepped
  rcases stepped with ⟨live, checked, stepped⟩
  have filtered := liveChunks_eq_ok checked
  have required : ∀ chunk ∈ live, chunk ∈ container.chunks ∧
      Required onlineChunks storedBases chunk.1 := by
    intro chunk
    rw [filtered, mem_filter, decide_eq_true_iff]
    exact id
  split at stepped
  · rename_i empty
    simp only [bind_ok, pure_ok] at stepped
    rcases stepped with ⟨bytes, _, rfl⟩
    refine .inl ⟨?_, bytes, rfl⟩
    intro chunk mem needed
    have kept : chunk ∈ live := by
      rw [filtered, mem_filter, decide_eq_true_iff]
      exact ⟨mem, needed⟩
    rw [empty] at kept
    exact not_mem_nil kept
  · rename_i occupied
    rcases exists_mem_of_ne_nil _ occupied with ⟨chunk, kept⟩
    split at stepped
    · rename_i fewer
      simp only [bind_ok, pure_ok] at stepped
      rcases stepped with ⟨count, _, rfl⟩
      refine .inr (.inl ⟨⟨⟨chunk, required chunk kept⟩, ?_⟩, count, by rw [filtered]⟩)
      by_contra none
      push Not at none
      have all : live = container.chunks := by
        rw [filtered, filter_eq_self]
        intro other mem
        exact decide_eq_true (none other mem)
      rw [all] at fewer
      exact Nat.lt_irrefl _ fewer
    · rename_i many
      rw [pure_ok] at stepped
      subst stepped
      have all : live = container.chunks := by
        have sublist : live.Sublist container.chunks := by
          rw [filtered]
          exact filter_sublist
        exact sublist.eq_of_length_le (Nat.le_of_not_lt many)
      refine .inr (.inr ⟨⟨?_, ?_⟩, by rw [all]⟩)
      · rw [← all]
        exact occupied
      · intro other mem
        rw [← all] at mem
        exact (required other mem).2

/-- One more Container is classified by what is live in it. -/
theorem Classified.step (classified : Classified onlineChunks storedBases visited state)
    (stepped : classifyContainer onlineChunks storedBases container state = .ok next) :
    Classified onlineChunks storedBases (visited ++ [container]) next := by
  rcases classified with ⟨reclaimable, partials, covered, lengths, retained⟩
  rcases classifyContainer_cases stepped with
    ⟨unreachable, bytes, rfl⟩ | ⟨mixed, count, rfl⟩ | ⟨full, rfl⟩
  · have notMixed := unreachable.not_partiallyLive
    have notFull := unreachable.not_fullyLive
    constructor <;> grind
  · have notUnreachable := mixed.not_unreachable
    have notFull := mixed.not_fullyLive
    refine ⟨by grind, by grind, ?_, ?_, by grind⟩
    · intro chunk
      have added : chunk ∈ (container.chunks.filter fun chunk =>
          decide (Required onlineChunks storedBases chunk.1)).map Prod.fst ↔
            Required onlineChunks storedBases chunk ∧ ∃ length,
              (chunk, length) ∈ container.chunks := by
        simp only [mem_map, mem_filter, decide_eq_true_iff, Prod.exists]
        constructor
        · rintro ⟨_, length, ⟨mem, needed⟩, rfl⟩
          exact ⟨needed, length, mem⟩
        · rintro ⟨needed, length, mem⟩
          exact ⟨chunk, length, ⟨mem, needed⟩, rfl⟩
      rw [Coverage.mem_extend, added, covered]
      constructor
      · rintro (⟨needed, other, mem, rest⟩ | ⟨needed, found⟩)
        · exact ⟨needed, other, mem_append_left _ mem, rest⟩
        · exact ⟨needed, container, by simp, mixed, found⟩
      · rintro ⟨needed, other, mem, live, found⟩
        rcases mem_append.mp mem with before | last
        · exact .inl ⟨needed, other, before, live, found⟩
        · rw [mem_singleton.mp last] at found
          exact .inr ⟨needed, found⟩
    · intro chunk length found
      rcases Coverage.lookup_extend found with added | before
      · exact ⟨container, by simp, (mem_filter.mp added).1⟩
      · grind
  · have notUnreachable : ¬ Unreachable onlineChunks storedBases container :=
      fun unreachable => unreachable.not_fullyLive full
    have notMixed : ¬ PartiallyLive onlineChunks storedBases container :=
      fun mixed => mixed.not_fullyLive full
    constructor <;> grind

theorem visited_classified
    (visits : visited.foldlM (visitContainer onlineChunks storedBases pool) Classification.initial =
      .ok state) : Classified onlineChunks storedBases visited state := by
  -- Induction on the visited Containers from their end, as the pass adds them there.
  induction visited using List.reverseRecOn generalizing state with
  | nil =>
    cases visits
    exact classified_initial
  | append_singleton visited container ih =>
    rw [foldlM_append, bind_ok] at visits
    rcases visits with ⟨before, earlier, last⟩
    simp only [foldlM_cons, foldlM_nil, visitContainer, bind_ok, pure_ok] at last
    rcases last with ⟨after, ⟨_, _, _, _, classified⟩, rfl⟩
    exact (ih earlier).step classified

/-- The plan of an offline collection. Only the mixed Containers and the unreachable ones are
removed, and what is written again is what the mixed ones alone cover. -/
structure Planned (onlineChunks : OnlineChunks) (pool : Pool) (inventory : ContainerGcInventory) :
    Prop where
  reclaimable : ∀ container, container ∈ inventory.reclaimable ↔
    container ∈ pool ∧ Unreachable onlineChunks (storedDependentBases pool) container
  victims : inventory.compactionVictims = [] ∧ inventory.replacementChunks = ∅ ∨
    (∀ container, container ∈ inventory.compactionVictims ↔
      container ∈ pool ∧ PartiallyLive onlineChunks (storedDependentBases pool) container) ∧
    ∀ chunk, chunk ∈ inventory.replacementChunks ↔
      (Required onlineChunks (storedDependentBases pool) chunk ∧ ∃ container ∈ pool,
        PartiallyLive onlineChunks (storedDependentBases pool) container ∧
          ∃ length, (chunk, length) ∈ container.chunks) ∧
      ¬ ∃ container ∈ pool, FullyLive onlineChunks (storedDependentBases pool) container ∧
          ∃ length, (chunk, length) ∈ container.chunks
  lengths : ∀ chunk length, inventory.replacementChunks.lookup chunk = some length →
    ∃ container ∈ pool, (chunk, length) ∈ container.chunks

theorem chooseVictims_eq_ok (chosen : chooseVictims state = .ok inventory) :
    inventory.reclaimable = state.reclaimable ∧
      (inventory.compactionVictims = [] ∧ inventory.replacementChunks = ∅ ∨
        inventory.compactionVictims = state.partials ∧
          inventory.replacementChunks = state.partialCoverage.without state.retainedCoverage) := by
  simp only [chooseVictims, bind_ok] at chosen
  rcases chosen with ⟨estimated, _, chosen⟩
  split at chosen
  · simp only [bind_ok, pure_ok] at chosen
    rcases chosen with ⟨_, _, _, _, _, _, rfl⟩
    exact ⟨rfl, .inr ⟨rfl, rfl⟩⟩
  · simp only [bind_ok, pure_ok] at chosen
    rcases chosen with ⟨_, _, _, _, rfl⟩
    exact ⟨rfl, .inl ⟨rfl, rfl⟩⟩

theorem planContainerGc_spec (planned : planContainerGc onlineChunks pool = .ok inventory) :
    Planned onlineChunks pool inventory := by
  simp only [planContainerGc, bind_ok] at planned
  rcases planned with ⟨state, visits, chosen⟩
  have classified := visited_classified visits
  rcases chooseVictims_eq_ok chosen with ⟨reclaimable, ⟨none, nothing⟩ | ⟨victims, replacement⟩⟩
  · refine ⟨?_, .inl ⟨none, nothing⟩, ?_⟩
    · rw [reclaimable]
      exact classified.reclaimable
    · intro chunk length found
      rw [nothing, lookup_empty] at found
      cases found
  · refine ⟨?_, .inr ⟨?_, ?_⟩, ?_⟩
    · rw [reclaimable]
      exact classified.reclaimable
    · rw [victims]
      exact classified.partials
    · intro chunk
      rw [replacement, Coverage.mem_without, classified.covered, classified.retained]
    · intro chunk length found
      have mem : chunk ∈ state.partialCoverage.without state.retainedCoverage := by
        rw [← replacement, ← lookup_isSome, found]
        rfl
      rw [replacement, Coverage.lookup_without (Coverage.mem_without.mp mem).2] at found
      exact classified.lengths chunk length found

end Passes

end Fastdup.Store.Maintenance
