import Fastdup.Store.Maintenance.Planning
import Mathlib.Data.Finset.Card

/-!
# Writing the replacements of a collection

The required Chunks of the victims are gathered into bounded batches, and every batch becomes one
new Container. A Record whose Chunks are all required and not yet gathered is copied as it is when
it is independent; otherwise its required Chunks are written again from their payloads. Either
way a replacement is an independent copy.
-/

namespace Fastdup.Store.Maintenance

open Library Checked Format List Finset Nat

/-- What is copied into the replacement: a Chunk, or a record as it stands. -/
inductive GcReplacementItem where
  | chunk (payload : ChunkCopy)
  | transplanted (record : EncodingRecord)

namespace GcReplacementItem

/-- The Chunks that the item brings along. -/
def identities : GcReplacementItem → List ChunkCopy
  | .chunk payload => [payload]
  | .transplanted record => record.chunks

def logicalBytes : GcReplacementItem → Except MaintenanceError ℕ
  | .chunk payload => .ok payload.2
  | .transplanted record =>
    record.chunks.foldlM (fun total chunk => checkedAdd .arithmeticOverflow total chunk.2) 0

def chunkCount (item : GcReplacementItem) : ℕ :=
  item.identities.length

/-- The Record decodes on its own. -/
def Independent : GcReplacementItem → Prop
  | .chunk _ => True
  | .transplanted record => record.codec.Independent

end GcReplacementItem

/-- What the Container writer decides: names, compression and sizes. -/
structure ReplacementWriter where
  gcReplacementContainerId : ℕ → List ChunkCopy → ContainerId
  compresses : List ChunkCopy → Bool
  recordLength : Codec → List ChunkCopy → ℕ
  fileLength : List EncodingRecord → ℕ

/-- Cuts the Chunks into regions of a bounded size. -/
def gcCompressionRegions (current : List ChunkCopy) (currentBytes : ℕ) :
    List ChunkCopy → List (List ChunkCopy)
  | [] => if current = [] then [] else [current]
  | chunk :: rest =>
    if current ≠ [] ∧ currentBytes + chunk.2 > GC_COMPRESSION_REGION_BYTES then
      current :: gcCompressionRegions [chunk] chunk.2 rest
    else gcCompressionRegions (current ++ [chunk]) (currentBytes + chunk.2) rest

section Writing

variable (writer : ReplacementWriter)

/-- A region is one Zstd Record or a RAW Record for each Chunk. -/
def encodeRegion (region : List ChunkCopy) : List EncodingRecord :=
  if occupied : region ≠ [] then
    if writer.compresses region then
      [{ codec := .zstd, recordLength := writer.recordLength .zstd region, chunks := region,
         occupied }]
    else
      region.map fun chunk =>
        { codec := .raw, recordLength := writer.recordLength .raw [chunk], chunks := [chunk],
          occupied := List.cons_ne_nil chunk [] }
  else []

def payloads (items : List GcReplacementItem) : List ChunkCopy :=
  items.flatMap fun
    | .chunk payload => [payload]
    | .transplanted _ => []

def transplants (items : List GcReplacementItem) : List EncodingRecord :=
  items.filterMap fun
    | .chunk _ => none
    | .transplanted record => some record

/-- The Container that a batch is written as. -/
def replacementContainer (generation : ℕ) (items : List GcReplacementItem) : SealedContainer :=
  let records := (gcCompressionRegions [] 0 (payloads items)).flatMap (encodeRegion writer) ++
    transplants items
  { containerId := writer.gcReplacementContainerId generation
      (items.flatMap GcReplacementItem.identities),
    containerGeneration := generation,
    fileLength := writer.fileLength records,
    records }

/-- Publishes a Container unless its name is taken by another one. -/
def publishSealedResumable (pool : Pool) (container : SealedContainer) :
    Except MaintenanceError Pool :=
  match pool.find? (fun existing => decide (existing.containerId = container.containerId)) with
  | some existing =>
    if existing = container then .ok pool else .error .publishVerificationMismatch
  | none => .ok (pool ++ [container])

/-- The gathered Chunks, the open batch and what is published so far. `generation` is the last
one the allocator returned. -/
structure Publishing where
  pool : Pool
  generation : ℕ
  seen : Finset ChunkId
  batch : List GcReplacementItem
  batchBytes : ℕ
  batchChunks : ℕ
  containers : List SealedContainer
  chunks : ℕ

def Publishing.initial (pool : Pool) (generation : ℕ) : Publishing where
  pool
  generation
  seen := ∅
  batch := []
  batchBytes := 0
  batchChunks := 0
  containers := []
  chunks := 0

/-- Publishes the open batch under the next generation. -/
def publishGcReplacementBatch (state : Publishing) : Except MaintenanceError Publishing := do
  require (¬ state.generation + 1 < 2 ^ 64) .containerGenerationExhausted
  let container := replacementContainer writer (state.generation + 1) state.batch
  let pool ← publishSealedResumable state.pool container
  let chunks ← checkedAdd .arithmeticOverflow state.chunks
    (state.batch.flatMap GcReplacementItem.identities).length
  pure { state with pool, generation := state.generation + 1, batch := [], batchBytes := 0,
                    batchChunks := 0, containers := state.containers ++ [container], chunks }

/-- Publishes the open batch when it is not empty and too large for what follows. -/
def closeBatch (exceeds : Bool) (state : Publishing) : Except MaintenanceError Publishing :=
  if state.batch ≠ [] ∧ exceeds then publishGcReplacementBatch writer state else .ok state

/-- Adds an item to the batch, behind a publication when the batch would get too large. -/
def pushItem (item : GcReplacementItem) (exceedsChunks : Bool) (state : Publishing) :
    Except MaintenanceError Publishing := do
  let itemBytes ← item.logicalBytes
  let total ← checkedAdd .arithmeticOverflow state.batchBytes itemBytes
  let state ← closeBatch writer
    (decide (total > GC_REPLACEMENT_LOGICAL_TARGET_BYTES) || exceedsChunks) state
  let batchBytes ← checkedAdd .arithmeticOverflow state.batchBytes itemBytes
  let batchChunks ← checkedAdd .arithmeticOverflow state.batchChunks item.chunkCount
  pure { state with batch := state.batch ++ [item], batchBytes, batchChunks }

variable (required : Coverage)

/-- Whether a Chunk is required. It must then have its expected length. -/
def claimChunk (chunk : ChunkCopy) : Except MaintenanceError Bool :=
  match required.lookup chunk.1 with
  | some expected =>
    if expected = chunk.2 then .ok true
    else .error (.onlineChunkLengthMismatch chunk.1 expected chunk.2)
  | none => .ok false

/-- Whether every Chunk of a Record is required and new. -/
def groupFullLive (seen : Finset ChunkId) (groupIds : Finset ChunkId) :
    List ChunkCopy → Except MaintenanceError Bool
  | [] => .ok true
  | chunk :: rest => do
      let claimed ← claimChunk required chunk
      let later ← groupFullLive seen (if chunk.1 ∈ seen then groupIds else insert chunk.1 groupIds)
        rest
      pure (claimed && decide (chunk.1 ∉ seen ∧ chunk.1 ∉ groupIds) && later)

/-- Gathers a required Chunk from its payload. -/
def collectChunk (state : Publishing) (chunk : ChunkCopy) : Except MaintenanceError Publishing :=
  if (required.lookup chunk.1).isNone ∨ chunk.1 ∈ state.seen then .ok state
  else
    pushItem writer (.chunk chunk) (decide (state.batchChunks = GC_REPLACEMENT_CHUNK_LIMIT))
      { state with seen := insert chunk.1 state.seen }

/-- Copies a Record into the batch and marks its Chunks as gathered. -/
def transplantRecord (record : EncodingRecord) (state : Publishing) :
    Except MaintenanceError Publishing := do
  let item := GcReplacementItem.transplanted record
  let state ← pushItem writer item
    (decide (state.batchChunks + item.chunkCount > GC_REPLACEMENT_CHUNK_LIMIT)) state
  pure { state with seen := state.seen ∪ (record.chunks.map Prod.fst).toFinset }

/-- Moves a Record as it stands, or the Chunks of it that are needed. -/
def collectRecord (state : Publishing) (record : EncodingRecord) :
    Except MaintenanceError Publishing := do
  let fullLive ← groupFullLive required state.seen ∅ record.chunks
  if fullLive ∧ record.chunks.length ≤ GC_REPLACEMENT_CHUNK_LIMIT ∧ record.codec.Independent then
    transplantRecord writer record state
  else record.chunks.foldlM (collectChunk writer required) state

/-- A victim is read back before anything is taken from it. -/
def readVerifiedImage (pool : Pool) (containerId : ContainerId) :
    Except MaintenanceError SealedContainer :=
  match pool.find? (fun container => decide (container.containerId = containerId)) with
  | some container => do
      decodePublished pool container
      pure container
  | none => .error .missingContainer

def collectVictim (state : Publishing) (containerId : ContainerId) :
    Except MaintenanceError Publishing := do
  let container ← readVerifiedImage state.pool containerId
  container.records.foldlM (collectRecord writer required) state

/-- Publishes the last batch and checks that every required Chunk was published once. -/
def finishReplacements (state : Publishing) : Except MaintenanceError Publishing := do
  let state ← closeBatch writer true state
  require (¬ ∀ chunk ∈ state.seen, chunk ∈ required) .assertion
  require (state.seen.card ≠ required.count) .missingReplacementChunk
  require (state.chunks ≠ required.count) .assertion
  let plannedUpper ← replacementContainerCountUpperBound required
  require (¬ state.containers.length ≤ plannedUpper) .assertion
  pure state

/-- The replacement of the offline collection. -/
def publishGcReplacementsUsing (pool : Pool) (generation : ℕ) (victims : List ContainerId) :
    Except MaintenanceError Publishing := do
  let state ← victims.foldlM (collectVictim writer required) (Publishing.initial pool generation)
  finishReplacements writer required state

/-- Publishes Items that were gathered before, each Chunk once. -/
def publishItem (state : Publishing) (item : GcReplacementItem) :
    Except MaintenanceError Publishing := do
  require (¬ ((item.identities.map Prod.fst).Nodup ∧
    ∀ chunk ∈ item.identities, chunk.1 ∉ state.seen)) .assertion
  pushItem writer item (decide (state.batchChunks + item.chunkCount > GC_REPLACEMENT_CHUNK_LIMIT))
    { state with seen := state.seen ∪ (item.identities.map Prod.fst).toFinset }

/-- The replacement of an online proof. -/
def publishCollectedItems (pool : Pool) (generation : ℕ) (items : List GcReplacementItem) :
    Except MaintenanceError Publishing := do
  let state ← items.foldlM (publishItem writer) (Publishing.initial pool generation)
  finishReplacements writer required state

end Writing

section Batches

variable {writer : ReplacementWriter} {items : List GcReplacementItem} {generation : ℕ}
  {chunk : ChunkCopy}

theorem flatten_gcCompressionRegions (current : List ChunkCopy) (currentBytes : ℕ)
    (chunks : List ChunkCopy) :
    (gcCompressionRegions current currentBytes chunks).flatten = current ++ chunks := by
  induction chunks generalizing current currentBytes with
  | nil =>
    unfold gcCompressionRegions
    split
    · rename_i empty
      rw [empty]
      rfl
    · simp
  | cons first rest ih =>
    unfold gcCompressionRegions
    split
    · rw [flatten_cons, ih]
      rfl
    · rw [ih, append_assoc]
      rfl

theorem chunks_encodeRegion (region : List ChunkCopy) :
    (encodeRegion writer region).flatMap EncodingRecord.chunks = region := by
  unfold encodeRegion
  split
  · split
    · simp
    · simp [flatMap_map]
  · rename_i empty
    simp [not_not.mp empty]

variable {record : EncodingRecord}

theorem independent_of_mem_encodeRegion {region : List ChunkCopy}
    (mem : record ∈ encodeRegion writer region) : record.codec.Independent := by
  unfold encodeRegion at mem
  split at mem
  · split at mem
    · rw [List.mem_singleton.mp mem]
      rfl
    · rcases mem_map.mp mem with ⟨_, _, rfl⟩
      rfl
  · cases mem

theorem mem_transplants :
    record ∈ transplants items ↔ GcReplacementItem.transplanted record ∈ items := by
  rw [transplants, List.mem_filterMap]
  constructor
  · rintro ⟨item, mem, holds⟩
    cases item with
    | chunk payload => cases holds
    | transplanted other =>
      cases holds
      exact mem
  · intro mem
    exact ⟨_, mem, rfl⟩

/-- A Container holds the Chunks of its batch. The transplanted ones come last. -/
theorem chunks_replacementContainer : (replacementContainer writer generation items).chunks.Perm
      (items.flatMap GcReplacementItem.identities) := by
  have written : ((gcCompressionRegions [] 0 (payloads items)).flatMap
      (encodeRegion writer)).flatMap EncodingRecord.chunks = payloads items := by
    rw [flatMap_assoc]
    simp [chunks_encodeRegion, flatMap_id', flatten_gcCompressionRegions]
  rw [SealedContainer.chunks, replacementContainer, flatMap_append, written]
  clear written
  induction items with
  | nil => rfl
  | cons item rest ih =>
    cases item with
    | chunk payload => exact ih.cons payload
    | transplanted record =>
      exact perm_append_comm_assoc _ _ _ |>.trans (ih.append_left record.chunks)

theorem mem_replacementContainer_chunks :
    chunk ∈ (replacementContainer writer generation items).chunks ↔
      ∃ item ∈ items, chunk ∈ item.identities :=
  chunks_replacementContainer.mem_iff.trans mem_flatMap

theorem independent_of_mem_replacementContainer (independent : ∀ item ∈ items, item.Independent)
    (mem : record ∈ (replacementContainer writer generation items).records) :
    record.codec.Independent := by
  rcases mem_append.mp mem with written | copied
  · rcases mem_flatMap.mp written with ⟨region, _, encoded⟩
    exact independent_of_mem_encodeRegion encoded
  · exact independent _ (mem_transplants.mp copied)

end Batches

/-- The state of a publication on top of a pool. -/
structure Gathered (pool : Pool) (required : Coverage) (state : Publishing) : Prop where
  onTop : state.pool = pool ++ state.containers
  bounded : ∀ container ∈ state.pool, container.containerGeneration ≤ state.generation
  named : ∀ container ∈ state.containers, ∀ other ∈ pool,
    container.containerId ≠ other.containerId
  independent : ∀ container ∈ state.containers, ∀ record ∈ container.records,
    record.codec.Independent
  requested : ∀ container ∈ state.containers, ∀ chunk ∈ container.chunks,
    required.lookup chunk.1 = some chunk.2
  items : ∀ item ∈ state.batch, item.Independent ∧
    ∀ chunk ∈ item.identities, required.lookup chunk.1 = some chunk.2

/-- The Chunk is in the open batch or published. -/
def Accounted (state : Publishing) (chunk : ChunkId) : Prop :=
  (∃ item ∈ state.batch, ∃ length, (chunk, length) ∈ item.identities) ∨
    ∃ container ∈ state.containers, ∃ length, (chunk, length) ∈ container.chunks

variable {exceedsChunks : Bool} {generation : ℕ} {chunk : ChunkCopy}

section Publishing

variable {writer : ReplacementWriter} {pool : Pool} {required : Coverage} {state next : Publishing}
  {item : GcReplacementItem}

theorem publishSealedResumable_eq_ok {container : SealedContainer} {published : Pool}
    (fresh : container ∉ pool) (ran : publishSealedResumable pool container = .ok published) :
    published = pool ++ [container] ∧ ∀ other ∈ pool,
      container.containerId ≠ other.containerId := by
  unfold publishSealedResumable at ran
  split at ran
  · rename_i existing found
    split at ran
    · rename_i same
      have mem := mem_of_find?_eq_some found
      rw [same] at mem
      exact absurd mem fresh
    · cases ran
  · rename_i missing
    cases ran
    refine ⟨rfl, ?_⟩
    intro other mem same
    have absent := find?_eq_none.mp missing other mem
    rw [decide_eq_true_iff] at absent
    exact absent same.symm

section

variable (gathered : Gathered pool required state)

include gathered

theorem Gathered.published (ran : publishGcReplacementBatch writer state = .ok next) :
    Gathered pool required next ∧ (∀ chunk, Accounted state chunk → Accounted next chunk) ∧
      next.batch = [] ∧ next.seen = state.seen := by
  simp only [publishGcReplacementBatch, bind_ok, pure_ok] at ran
  rcases ran with ⟨_, _, published, publishes, _, _, rfl⟩
  have fresh : replacementContainer writer (state.generation + 1) state.batch ∉ state.pool := by
    intro mem
    have bounded := gathered.bounded _ mem
    exact not_succ_le_self _ bounded
  rcases publishSealedResumable_eq_ok fresh publishes with ⟨rfl, named⟩
  refine ⟨⟨?_, ?_, ?_, ?_, ?_, ?_⟩, ?_, rfl, rfl⟩
  · rw [gathered.onTop, append_assoc]
  · intro container mem
    rcases mem_append.mp mem with before | last
    · exact le_succ_of_le (gathered.bounded container before)
    · rw [List.mem_singleton.mp last]
      exact le_refl _
  · refine forall_mem_append.mpr ⟨gathered.named, forall_mem_singleton.mpr ?_⟩
    intro other old
    apply named
    rw [gathered.onTop]
    exact mem_append_left _ old
  · refine forall_mem_append.mpr ⟨gathered.independent, forall_mem_singleton.mpr ?_⟩
    intro record
    exact independent_of_mem_replacementContainer fun item mem => (gathered.items item mem).1
  · refine forall_mem_append.mpr ⟨gathered.requested, forall_mem_singleton.mpr ?_⟩
    intro chunk holds
    rcases mem_replacementContainer_chunks.mp holds with ⟨item, inBatch, named⟩
    exact (gathered.items item inBatch).2 chunk named
  · intro item impossible
    cases impossible
  · intro chunk accounted
    right
    rcases accounted with ⟨item, mem, length, holds⟩ | ⟨container, mem, holds⟩
    · exact ⟨_, List.mem_append_right _ (List.mem_singleton.mpr rfl), length,
        mem_replacementContainer_chunks.mpr ⟨item, mem, holds⟩⟩
    · exact ⟨container, mem_append_left _ mem, holds⟩

theorem Gathered.closed {exceeds : Bool} (ran : closeBatch writer exceeds state = .ok next) :
    Gathered pool required next ∧ (∀ chunk, Accounted state chunk → Accounted next chunk) ∧
      next.seen = state.seen ∧ (exceeds = true → next.batch = []) := by
  unfold closeBatch at ran
  split at ran
  · rcases gathered.published ran with ⟨after, accounted, empty, same⟩
    exact ⟨after, accounted, same, fun _ => empty⟩
  · rename_i kept
    cases ran
    refine ⟨gathered, fun _ => id, rfl, ?_⟩
    intro exceeds
    by_contra occupied
    exact kept ⟨occupied, exceeds⟩

/-- An independent item whose Chunks are required with their lengths. -/
def Admissible (required : Coverage) (item : GcReplacementItem) : Prop :=
  item.Independent ∧ ∀ chunk ∈ item.identities, required.lookup chunk.1 = some chunk.2

theorem Gathered.pushed (admissible : Admissible required item)
    (ran : pushItem writer item exceedsChunks state = .ok next) :
    Gathered pool required next ∧ (∀ chunk, Accounted state chunk → Accounted next chunk) ∧
      ∀ chunk ∈ item.identities, Accounted next chunk.1 := by
  simp only [pushItem, bind_ok, pure_ok] at ran
  rcases ran with ⟨_, _, _, _, room, closed, _, _, _, _, rfl⟩
  rcases gathered.closed closed with ⟨before, accounted, _⟩
  refine ⟨{ before with items := ?_ }, ?_, ?_⟩
  · exact forall_mem_append.mpr ⟨before.items, forall_mem_singleton.mpr admissible⟩
  · intro chunk known
    rcases accounted chunk known with ⟨other, mem, holds⟩ | published
    · exact .inl ⟨other, mem_append_left _ mem, holds⟩
    · exact .inr published
  · intro chunk holds
    exact .inl ⟨item, List.mem_append_right _ (List.mem_singleton.mpr rfl), chunk.2, holds⟩

end

/-- A publication in progress: everything gathered is in the batch or published. -/
structure InProgress (pool : Pool) (required : Coverage) (state : Publishing) : Prop where
  gathered : Gathered pool required state
  accounted : ∀ chunk ∈ state.seen, Accounted state chunk

theorem inProgress_initial
    (bounded : ∀ container ∈ pool, container.containerGeneration ≤ generation) :
    InProgress pool required (Publishing.initial pool generation) where
  gathered := by
    refine ⟨?_, bounded, ?_, ?_, ?_, ?_⟩
    all_goals simp [Publishing.initial]
  accounted := by simp [Publishing.initial]

theorem pushItem_seen (ran : pushItem writer item exceedsChunks state = .ok next) :
    next.seen = state.seen := by
  simp only [pushItem, bind_ok, pure_ok] at ran
  rcases ran with ⟨_, _, _, _, room, closed, _, _, _, _, rfl⟩
  unfold closeBatch at closed
  split at closed
  · simp only [publishGcReplacementBatch, bind_ok, pure_ok] at closed
    rcases closed with ⟨_, _, _, _, _, _, rfl⟩
    rfl
  · cases closed
    rfl

/-- What a step of a collection does: an item of new Chunks goes into the batch, and its Chunks
are marked before or behind it. -/
structure Gathers (writer : ReplacementWriter) (required : Coverage) (state : Publishing)
    (item : GcReplacementItem) (next : Publishing) : Prop where
  admissible : Admissible required item
  distinct : (item.identities.map Prod.fst).Nodup
  fresh : ∀ chunk ∈ item.identities, chunk.1 ∉ state.seen
  pushed : ∃ exceedsChunks seen after, pushItem writer item exceedsChunks { state with seen } =
      .ok after ∧
    (state.batchChunks ≤ GC_REPLACEMENT_CHUNK_LIMIT →
      (exceedsChunks = true ↔ GC_REPLACEMENT_CHUNK_LIMIT < state.batchChunks + item.chunkCount)) ∧
    next = { after with seen := state.seen ∪ (item.identities.map Prod.fst).toFinset }

theorem claimChunk_eq_ok {claimed : Bool} (checked : claimChunk required chunk = .ok claimed) :
    (∀ expected, required.lookup chunk.1 = some expected → expected = chunk.2) ∧
      (claimed = true ↔ required.lookup chunk.1 = some chunk.2) := by
  unfold claimChunk at checked
  split at checked
  · rename_i expected found
    split at checked
    · rename_i same
      cases checked
      rw [found, same]
      exact ⟨fun other equal => (Option.some.inj equal).symm, iff_of_true rfl rfl⟩
    · cases checked
  · rename_i missing
    cases checked
    rw [missing]
    simp

/-- The scan of a Record checks the lengths of its required Chunks, and it is positive when all of
them are required and new. -/
theorem groupFullLive_eq_ok {seen groupIds : Finset ChunkId} {chunks : List ChunkCopy}
    {fullLive : Bool} (scanned : groupFullLive required seen groupIds chunks = .ok fullLive) :
    (∀ chunk ∈ chunks, ∀ expected, required.lookup chunk.1 = some expected → expected = chunk.2) ∧
      (fullLive = true ↔ (chunks.map Prod.fst).Nodup ∧ ∀ chunk ∈ chunks,
        required.lookup chunk.1 = some chunk.2 ∧ chunk.1 ∉ seen ∧ chunk.1 ∉ groupIds) := by
  induction chunks generalizing groupIds fullLive with
  | nil =>
    cases scanned
    simp
  | cons chunk rest ih =>
    simp only [groupFullLive, bind_ok, pure_ok] at scanned
    rcases scanned with ⟨claimed, first, later, scannedRest, rfl⟩
    have checkedRest := ih scannedRest
    have checkedFirst := claimChunk_eq_ok first
    refine ⟨forall_mem_cons.mpr ⟨checkedFirst.1, checkedRest.1⟩, ?_⟩
    simp only [Bool.and_eq_true, decide_eq_true_eq, checkedRest.2, checkedFirst.2, List.map_cons,
      nodup_cons, List.forall_mem_cons]
    constructor
    · rintro ⟨⟨isClaimed, new⟩, distinct, fresh⟩
      simp only [if_neg new.1, mem_insert, not_or] at fresh
      refine ⟨⟨?_, distinct⟩, ⟨isClaimed, new⟩, fun other mem =>
        ⟨(fresh other mem).1, (fresh other mem).2.1, (fresh other mem).2.2.2⟩⟩
      intro again
      rcases mem_map.mp again with ⟨other, mem, same⟩
      exact (fresh other mem).2.2.1 same
    · rintro ⟨⟨once, distinct⟩, ⟨isClaimed, new⟩, fresh⟩
      refine ⟨⟨isClaimed, new⟩, distinct, fun other mem => ?_⟩
      rw [if_neg new.1, mem_insert, not_or]
      refine ⟨(fresh other mem).1, (fresh other mem).2.1, ?_, (fresh other mem).2.2⟩
      exact fun same => once (same ▸ mem_map_of_mem mem)

theorem collectChunk_gathers
    (length : ∀ expected, required.lookup chunk.1 = some expected → expected = chunk.2)
    (ran : collectChunk writer required state chunk = .ok next) :
    if (required.lookup chunk.1).isNone ∨ chunk.1 ∈ state.seen then next = state
      else Gathers writer required state (.chunk chunk) next := by
  unfold collectChunk at ran
  split at ran
  · rename_i unwanted
    cases ran
    rw [if_pos unwanted]
  · rename_i wanted
    rw [if_neg wanted]
    rw [not_or, Option.isNone_iff_eq_none] at wanted
    have claimed : required.lookup chunk.1 = some chunk.2 := by
      rcases Option.ne_none_iff_exists'.mp wanted.1 with ⟨expected, found⟩
      rw [found, length expected found]
    refine ⟨⟨trivial, forall_mem_singleton.mpr claimed⟩, nodup_singleton _,
      forall_mem_singleton.mpr wanted.2, _, _, next, ran, ?_, ?_⟩
    · intro few
      rw [decide_eq_true_iff, GcReplacementItem.chunkCount, GcReplacementItem.identities,
        length_singleton]
      omega
    · have seen := pushItem_seen ran
      rw [Finset.insert_eq, Finset.union_comm] at seen
      rcases next
      cases seen
      rfl

theorem publishItem_gathers (admissible : Admissible required item)
    (ran : publishItem writer state item = .ok next) : Gathers writer required state item next := by
  simp only [publishItem, bind_ok, require_ok, not_not] at ran
  rcases ran with ⟨_, ⟨distinct, fresh⟩, pushes⟩
  refine ⟨admissible, distinct, fresh, _, _, next, pushes, fun _ => decide_eq_true_iff, ?_⟩
  have seen := pushItem_seen pushes
  rcases next
  cases seen
  rfl

/-- The items of a list are gathered one after another. -/
inductive GathersAll (writer : ReplacementWriter) (required : Coverage) :
    Publishing → List GcReplacementItem → Publishing → Prop where
  | nil {state : Publishing} : GathersAll writer required state [] state
  | cons {state middle next : Publishing} {item : GcReplacementItem}
      {items : List GcReplacementItem} (first : Gathers writer required state item middle)
      (small : item.chunkCount ≤ GC_REPLACEMENT_CHUNK_LIMIT)
      (rest : GathersAll writer required middle items next) :
      GathersAll writer required state (item :: items) next

/-- The required Chunks that were not gathered before. -/
def newChunks (required : Coverage) : Finset ChunkId → List ChunkCopy → List ChunkCopy
  | _, [] => []
  | seen, chunk :: rest =>
    if (required.lookup chunk.1).isNone ∨ chunk.1 ∈ seen then newChunks required seen rest
    else chunk :: newChunks required (insert chunk.1 seen) rest

/-- What is gathered from a Record: the whole of it, or its new Chunks. -/
def recordItems (required : Coverage) (seen : Finset ChunkId) (record : EncodingRecord) :
    List GcReplacementItem :=
  if ((record.chunks.map Prod.fst).Nodup ∧ ∀ chunk ∈ record.chunks,
      required.lookup chunk.1 = some chunk.2 ∧ chunk.1 ∉ seen) ∧
      record.chunks.length ≤ GC_REPLACEMENT_CHUNK_LIMIT ∧ record.codec.Independent then
    [.transplanted record]
  else (newChunks required seen record.chunks).map .chunk

theorem collectChunks_gathers {chunks : List ChunkCopy}
    (lengths : ∀ chunk ∈ chunks, ∀ expected, required.lookup chunk.1 = some expected →
      expected = chunk.2) (ran : chunks.foldlM (collectChunk writer required) state = .ok next) :
    GathersAll writer required state ((newChunks required state.seen chunks).map .chunk) next := by
  induction chunks generalizing state with
  | nil =>
    cases ran
    exact .nil
  | cons chunk rest ih =>
    rw [foldlM_cons, bind_ok] at ran
    rw [List.forall_mem_cons] at lengths
    rcases ran with ⟨middle, first, later⟩
    have gathers := collectChunk_gathers lengths.1 first
    have behind := ih lengths.2 later
    rw [newChunks]
    split_ifs at gathers ⊢
    · exact gathers ▸ behind
    · refine .cons gathers (show 1 ≤ GC_REPLACEMENT_CHUNK_LIMIT by decide) ?_
      rcases gathers.pushed with ⟨_, _, after, _, _, rfl⟩
      rw [← Finset.union_singleton]
      exact behind

/-- A Record is gathered whole or Chunk by Chunk. -/
theorem collectRecord_gathers {record : EncodingRecord}
    (ran : collectRecord writer required state record = .ok next) :
    GathersAll writer required state (recordItems required state.seen record) next := by
  simp only [collectRecord, bind_ok] at ran
  rcases ran with ⟨fullLive, scanned, ran⟩
  have checked := groupFullLive_eq_ok scanned
  simp only [notMem_empty, not_false_eq_true, and_true] at checked
  unfold recordItems
  simp only [checked.2] at ran
  split_ifs at ran ⊢ with transplant
  · rcases transplant.1 with ⟨distinct, all⟩
    simp only [transplantRecord, bind_ok, pure_ok] at ran
    rcases ran with ⟨after, pushes, rfl⟩
    refine .cons ?_ transplant.2.1 .nil
    exact ⟨⟨transplant.2.2, fun chunk mem => (all chunk mem).1⟩, distinct,
      fun chunk mem => (all chunk mem).2, _, state.seen, after, pushes,
      fun _ => decide_eq_true_iff, by rw [← pushItem_seen pushes]; rfl⟩
  · exact collectChunks_gathers checked.1 ran

theorem GathersAll.keeps {items : List GcReplacementItem} {invariant : Publishing → Prop}
    (step : ∀ {state item next}, Gathers writer required state item next → invariant state →
      invariant next) (all : GathersAll writer required state items next)
    (start : invariant state) : invariant next := by
  induction all with
  | nil => exact start
  | cons first _ _ ih => exact ih (step first start)

section

variable (progress : InProgress pool required state)

include progress

theorem InProgress.gathers (gathers : Gathers writer required state item next) :
    InProgress pool required next := by
  rcases gathers.pushed with ⟨_, seen, after, pushes, _, rfl⟩
  have start : Gathered pool required { state with seen } := { progress.gathered with }
  rcases start.pushed gathers.admissible pushes with ⟨gathered, accounted, added⟩
  refine ⟨{ gathered with }, ?_⟩
  intro chunk mem
  rcases mem_union.mp mem with before | inItem
  · exact accounted chunk (progress.accounted chunk before)
  · rcases mem_map.mp (mem_toFinset.mp inItem) with ⟨copy, holds, rfl⟩
    exact added copy holds

theorem InProgress.victim {containerId : ContainerId}
    (ran : collectVictim writer required state containerId = .ok next) :
    InProgress pool required next := by
  simp only [collectVictim, bind_ok] at ran
  rcases ran with ⟨container, _, ran⟩
  refine foldlM_keeps (fun current record _ after progress collected => ?_) progress ran
  exact (collectRecord_gathers collected).keeps (fun gathers progress => progress.gathers gathers)
    progress

/-- Complete replacements: new independent copies of exactly the required Chunks. -/
structure Replaced (pool : Pool) (required : Coverage) (state : Publishing) : Prop where
  gathered : Gathered pool required state
  complete : ∀ chunk length, required.lookup chunk = some length →
    Pool.HasIndependent state.containers (chunk, length)

theorem InProgress.finished (ran : finishReplacements writer required state = .ok next) :
    Replaced pool required next := by
  simp only [finishReplacements, bind_ok, require_ok, pure_ok] at ran
  rcases ran with ⟨last, closed, _, known, _, counted, _, _, _, _, _, _, rfl⟩
  rcases progress.gathered.closed closed with ⟨gathered, accounted, same, emptied⟩
  refine ⟨gathered, ?_⟩
  intro chunk length found
  -- As many Chunks as there are required ones were gathered, and only required ones.
  have all : last.seen = required.keys.toFinset := by
    apply eq_of_subset_of_card_le
    · intro other mem
      exact mem_toFinset.mpr (not_not.mp known other mem)
    · rw [toFinset_card_of_nodup required.keys_nodup, not_not.mp counted, Coverage.count]
      exact le_of_eq (length_map _)
  have gatheredChunk : chunk ∈ last.seen := by
    rw [all, mem_toFinset]
    have present : chunk ∈ required := by
      rw [← AList.lookup_isSome, found]
      rfl
    exact present
  rw [same] at gatheredChunk
  rcases accounted chunk (progress.accounted chunk gatheredChunk) with
    ⟨item, mem, _⟩ | ⟨container, mem, stored, holds⟩
  · rw [emptied rfl] at mem
    cases mem
  · have expected := gathered.requested container mem _ holds
    rw [found, Option.some.injEq] at expected
    subst expected
    rcases SealedContainer.mem_chunks.mp holds with ⟨record, recorded, held⟩
    exact ⟨container, mem, record, recorded,
      gathered.independent container mem record recorded, held⟩

end

variable (bounded : ∀ container ∈ pool, container.containerGeneration ≤ generation)

include bounded

theorem publishGcReplacementsUsing_spec {victims : List ContainerId}
    (ran : publishGcReplacementsUsing writer required pool generation victims = .ok next) :
    Replaced pool required next := by
  simp only [publishGcReplacementsUsing, bind_ok] at ran
  rcases ran with ⟨collected, collects, finishes⟩
  have progress := foldlM_keeps (fun current victim _ after progress =>
    InProgress.victim progress) (inProgress_initial bounded) collects
  exact progress.finished finishes

theorem publishCollectedItems_spec {items : List GcReplacementItem}
    (admissible : ∀ item ∈ items, Admissible required item)
    (ran : publishCollectedItems writer required pool generation items = .ok next) :
    Replaced pool required next := by
  simp only [publishCollectedItems, bind_ok] at ran
  rcases ran with ⟨collected, collects, finishes⟩
  have progress := foldlM_keeps (fun current item mem after progress =>
    progress.gathers ∘ publishItem_gathers (admissible item mem)) (inProgress_initial bounded)
    collects
  exact progress.finished finishes

end Publishing

end Fastdup.Store.Maintenance
