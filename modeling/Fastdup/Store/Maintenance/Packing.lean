import Fastdup.Store.Maintenance.Replacement

/-!
# How many Containers the replacements take

The plan counts one Container for every `byteClosureFloor` bytes, one for every full set of Chunks
and one for the rest. That is right when an item closes a batch only if the batch is nearly full,
as a single Chunk does. A Record that is copied whole can close it earlier, so that the assertion
behind the last batch holds exactly when the batches of the gathered items, filled one after
another, are no more than planned.
-/

namespace Fastdup.Store.Maintenance

open Library Checked Format List Nat AList Publishing GcReplacementItem Bytes

def chunkIds (chunks : List ChunkCopy) : List ChunkId := chunks.map Prod.fst

def chunkBytes (chunks : List ChunkCopy) : ℕ := (chunks.map Prod.snd).sum

namespace Publishing

def published (state : Publishing) : List ChunkCopy :=
  state.containers.flatMap SealedContainer.chunks

def pending (state : Publishing) : List ChunkCopy :=
  state.batch.flatMap GcReplacementItem.identities

/-- What has been published or waits in the batch. -/
def placed (state : Publishing) : List ChunkCopy :=
  state.published ++ state.pending

end Publishing

/-- Batches that are filled one after another: those that are closed and the open one. -/
structure Batches where
  closed : ℕ
  bytes : ℕ
  chunks : ℕ
  deriving DecidableEq

/-- An item goes into the open batch, or into a new one when there is no room. -/
def Batches.add (batches : Batches) (item : GcReplacementItem) : Batches :=
  if batches.chunks ≠ 0 ∧
      (batches.bytes + chunkBytes item.identities > GC_REPLACEMENT_LOGICAL_TARGET_BYTES ∨
        batches.chunks + item.chunkCount > GC_REPLACEMENT_CHUNK_LIMIT) then
    ⟨batches.closed + 1, chunkBytes item.identities, item.chunkCount⟩
  else
    ⟨batches.closed, batches.bytes + chunkBytes item.identities, batches.chunks + item.chunkCount⟩

/-- The batches that the items take in their order. -/
def batchCount (items : List GcReplacementItem) : ℕ :=
  let batches := items.foldl Batches.add ⟨0, 0, 0⟩
  batches.closed + if batches.chunks = 0 then 0 else 1

/-- What a collection gathers from Records, one after another. -/
def gatheredItems (required : Coverage) : Finset ChunkId → List EncodingRecord →
    List GcReplacementItem
  | _, [] => []
  | seen, record :: rest =>
    let items := recordItems required seen record
    items ++ gatheredItems required
      (seen ∪ (chunkIds (items.flatMap GcReplacementItem.identities)).toFinset) rest

/-- The Records of the victims in their order. -/
def victimRecords (pool : Pool) (victims : List ContainerId) : List EncodingRecord :=
  victims.flatMap fun victim =>
    ((pool.find? fun container => decide (container.containerId = victim)).map
      SealedContainer.records).getD []

/-- How a publication of the items ends, once its last batch is written and the plan is computed. It
is complete exactly when every required Chunk was gathered and the items take no more batches than
planned. Then every required Chunk is published once. -/
def Finishes (writer : ReplacementWriter) (required : Coverage) (items : List GcReplacementItem)
    (state : Publishing) : Prop :=
  ∀ last planned, closeBatch writer true state = .ok last →
    replacementContainerCountUpperBound required = .ok planned →
      finishReplacements writer required state =
        (if last.seen.card ≠ required.count then .error .missingReplacementChunk
        else if batchCount items ≤ planned then .ok last else .error .assertion) ∧
      last.containers.length = batchCount items ∧
      (last.seen.card = required.count → (chunkIds last.published).Perm required.keys)

/-- Required Chunks that are gathered once each. -/
structure Placed (required : Coverage) (seen : Finset ChunkId) (placed : List ChunkCopy) :
    Prop where
  distinct : (chunkIds placed).Nodup
  seen : seen = (chunkIds placed).toFinset
  requested : ∀ chunk ∈ placed, required.lookup chunk.1 = some chunk.2

section Placed

variable {required : Coverage} {seen : Finset ChunkId} {placed added : List ChunkCopy}
  (holds : Placed required seen placed)

include holds

theorem Placed.perm (same : added.Perm placed) : Placed required seen added where
  distinct := (same.map _).nodup_iff.mpr holds.distinct
  seen := holds.seen.trans (toFinset_eq_of_perm _ _ (same.symm.map _))
  requested chunk mem := holds.requested chunk (same.subset mem)

theorem Placed.append (distinct : (chunkIds added).Nodup) (fresh : ∀ chunk ∈ added, chunk.1 ∉ seen)
    (requested : ∀ chunk ∈ added, required.lookup chunk.1 = some chunk.2) :
    Placed required (seen ∪ (chunkIds added).toFinset) (placed ++ added) where
  distinct := by
    rw [chunkIds, map_append]
    refine holds.distinct.append distinct ?_
    intro chunk before new
    rcases mem_map.mp new with ⟨copy, mem, rfl⟩
    apply fresh copy mem
    rw [holds.seen]
    exact mem_toFinset.mpr before
  seen := by simp [holds.seen, chunkIds]
  requested := forall_mem_append.mpr ⟨holds.requested, requested⟩

theorem Placed.subperm : (placed.map fun chunk => (⟨chunk.1, chunk.2⟩ : Sigma fun _ => ℕ)).Subperm
      required.entries := by
  refine (List.Nodup.of_map Sigma.fst ?_).subperm ?_
  · rw [map_map]
    exact holds.distinct
  · intro entry mem
    rcases mem_map.mp mem with ⟨chunk, inside, rfl⟩
    exact mem_lookup_iff.mp (holds.requested chunk inside)

theorem Placed.card : seen.card = placed.length := by
  rw [holds.seen, toFinset_card_of_nodup holds.distinct, chunkIds, length_map]

theorem Placed.complete (all : placed.length = required.count) :
    (chunkIds placed).Perm required.keys := by
  have perm := holds.subperm.perm_of_length_le (by simpa [Coverage.count] using all.ge)
  have ids := perm.map Sigma.fst
  rwa [map_map] at ids

end Placed

/-- The items gathered so far fill the Containers and the open batch. -/
structure Packs (pool : Pool) (required : Coverage) (items : List GcReplacementItem)
    (state : Publishing) : Prop where
  onPool : ∃ added, state.pool = pool ++ added
  filled : items.foldl Batches.add ⟨0, 0, 0⟩ =
    ⟨state.containers.length, state.batchBytes, state.batchChunks⟩
  vacant : state.batch = [] ↔ state.batchChunks = 0
  few : state.batchChunks ≤ GC_REPLACEMENT_CHUNK_LIMIT
  chunks : state.chunks = state.published.length
  placed : Placed required state.seen state.placed

section Packing

variable {writer : ReplacementWriter} {pool : Pool} {required : Coverage}
  {items more : List GcReplacementItem} {state next : Publishing} {item : GcReplacementItem}

theorem chunkCount_pos (item : GcReplacementItem) : 0 < item.chunkCount := by
  cases item with
  | chunk payload => simp [chunkCount, identities]
  | transplanted record => exact length_pos_iff.mpr record.occupied

theorem logicalBytes_eq {total : ℕ} (measured : item.logicalBytes = .ok total) :
    total = chunkBytes item.identities := by
  cases item with
  | chunk payload =>
      cases measured
      simp [identities, chunkBytes]
  | transplanted record => exact (foldlM_checkedAdd_ok.mp measured).1

theorem publishSealedResumable_grows {container : SealedContainer} {after : Pool}
    (ran : publishSealedResumable pool container = .ok after) : ∃ added, after = pool ++ added := by
  unfold publishSealedResumable at ran
  split at ran
  · split at ran
    · cases ran
      exact ⟨[], (append_nil _).symm⟩
    · cases ran
  · cases ran
    exact ⟨_, rfl⟩

theorem packs_initial {generation : ℕ} : Packs pool required [] (.initial pool generation) where
  onPool := ⟨[], (append_nil _).symm⟩
  filled := rfl
  vacant := by simp [initial]
  few := zero_le _
  chunks := rfl
  placed := by
    refine ⟨?_, rfl, ?_⟩ <;> simp [initial, placed, published, pending, chunkIds]

/-- Closing the open batch publishes it as one more Container and changes nothing else. -/
theorem closeBatch_ok {exceeds : Bool} (ran : closeBatch writer exceeds state = .ok next) :
    (if state.batch ≠ [] ∧ exceeds = true then
      next.batch = [] ∧ next.batchBytes = 0 ∧ next.batchChunks = 0 ∧
        next.containers.length = state.containers.length + 1
      else next = state) ∧
    (∃ added, next.pool = state.pool ++ added) ∧ next.placed.Perm state.placed ∧
      next.seen = state.seen ∧
      (state.chunks = state.published.length → next.chunks = next.published.length) := by
  unfold closeBatch at ran
  split at ran
  · rename_i closes
    rw [if_pos closes]
    simp only [publishGcReplacementBatch, bind_ok, pure_ok, checkedAdd_ok] at ran
    rcases ran with ⟨_, _, after, publishes, chunks, ⟨_, rfl⟩, rfl⟩
    generalize sealed : replacementContainer writer (state.generation + 1) state.batch = container
      at publishes
    have holds : container.chunks.Perm state.pending := sealed ▸ chunks_replacementContainer
    refine ⟨⟨rfl, rfl, rfl, by simp⟩, publishSealedResumable_grows publishes, ?_, rfl, ?_⟩
    · simpa [placed, published, pending] using holds.append_left state.published
    · intro counted
      simp [published, counted, holds.length_eq, pending]
  · rename_i kept
    cases ran
    rw [if_neg kept]
    exact ⟨rfl, ⟨[], (append_nil _).symm⟩, .refl _, rfl, id⟩

theorem Packs.gathers (packs : Packs pool required items state)
    (small : item.chunkCount ≤ GC_REPLACEMENT_CHUNK_LIMIT)
    (gathers : Gathers writer required state item next) :
    Packs pool required (items ++ [item]) next := by
  rcases gathers.pushed with ⟨exceedsChunks, seen, after, pushes, exceeds, rfl⟩
  simp only [pushItem, bind_ok, pure_ok, checkedAdd_ok] at pushes
  rcases pushes with ⟨size, measured, _, ⟨_, rfl⟩, middle, closed, _, ⟨_, rfl⟩, _, ⟨_, rfl⟩, rfl⟩
  cases logicalBytes_eq measured
  have positive := chunkCount_pos item
  have counts := exceeds packs.few
  rcases closeBatch_ok closed with ⟨batch, ⟨added, grown⟩, perm, _, counted⟩
  have closing : ({ state with seen }.batch ≠ [] ∧
      (decide ({ state with seen }.batchBytes + chunkBytes item.identities >
        GC_REPLACEMENT_LOGICAL_TARGET_BYTES) || exceedsChunks) = true) ↔
      state.batchChunks ≠ 0 ∧
        (state.batchBytes + chunkBytes item.identities > GC_REPLACEMENT_LOGICAL_TARGET_BYTES ∨
          state.batchChunks + item.chunkCount > GC_REPLACEMENT_CHUNK_LIMIT) := by
    rw [Bool.or_eq_true, decide_eq_true_eq, counts]
    exact and_congr_left' (not_congr packs.vacant)
  have extended : middle.placed ++ item.identities =
      { middle with batch := middle.batch ++ [item] }.placed := by
    simp [Publishing.placed, published, pending]
  have filled : Batches.add ⟨state.containers.length, state.batchBytes, state.batchChunks⟩ item =
        ⟨middle.containers.length, middle.batchBytes + chunkBytes item.identities,
          middle.batchChunks + item.chunkCount⟩ ∧
      middle.batchChunks + item.chunkCount ≤ GC_REPLACEMENT_CHUNK_LIMIT := by
    unfold Batches.add
    by_cases closes : state.batchChunks ≠ 0 ∧
        (state.batchBytes + chunkBytes item.identities > GC_REPLACEMENT_LOGICAL_TARGET_BYTES ∨
          state.batchChunks + item.chunkCount > GC_REPLACEMENT_CHUNK_LIMIT)
    · rw [if_pos (closing.mpr closes)] at batch
      rcases batch with ⟨_, noBytes, noChunks, published⟩
      rw [if_pos closes, noBytes, noChunks, published]
      simpa using small
    · rw [if_neg (closing.not.mpr closes)] at batch
      subst batch
      rw [if_neg closes]
      exact ⟨rfl, by simp only; omega⟩
  refine ⟨?_, ?_, ?_, filled.2, counted packs.chunks, ?_⟩
  · rcases packs.onPool with ⟨old, onOld⟩
    exact ⟨old ++ added, by simp only [grown, onOld, append_assoc]⟩
  · rw [foldl_append, packs.filled]
    exact filled.1
  · simp only [append_eq_nil_iff, cons_ne_nil, and_false, false_iff]
    omega
  · have once := packs.placed.append gathers.distinct gathers.fresh gathers.admissible.2
    refine once.perm ?_
    rw [Publishing.placed, pending, flatMap_append, flatMap_singleton, ← append_assoc]
    exact perm.append_right _

theorem Packs.gathersAll (packs : Packs pool required items state)
    (gathers : GathersAll writer required state more next) :
    Packs pool required (items ++ more) next ∧
      next.seen = state.seen ∪ (chunkIds (more.flatMap identities)).toFinset := by
  induction gathers generalizing items with
  | nil => exact ⟨by rwa [append_nil], by simp [chunkIds]⟩
  | @cons state middle next item more first small rest ih =>
    rcases ih (packs.gathers small first) with ⟨after, seen⟩
    rw [append_assoc, singleton_append] at after
    refine ⟨after, ?_⟩
    rcases first.pushed with ⟨_, _, _, _, _, rfl⟩
    simp [seen, chunkIds, Finset.union_assoc]

theorem Packs.records {records : List EncodingRecord} (packs : Packs pool required items state)
    (ran : records.foldlM (collectRecord writer required) state = .ok next) :
    Packs pool required (items ++ gatheredItems required state.seen records) next ∧
      next.seen = state.seen ∪
        (chunkIds ((gatheredItems required state.seen records).flatMap identities)).toFinset := by
  induction records generalizing items state with
  | nil =>
    cases ran
    exact ⟨by rwa [gatheredItems, append_nil], by simp [gatheredItems, chunkIds]⟩
  | cons record rest ih =>
    rw [foldlM_cons, bind_ok] at ran
    rcases ran with ⟨middle, first, later⟩
    rcases packs.gathersAll (collectRecord_gathers first) with ⟨after, seen⟩
    rcases ih after later with ⟨last, lastSeen⟩
    rw [seen] at last lastSeen
    rw [gatheredItems]
    refine ⟨by rwa [← append_assoc], ?_⟩
    rw [lastSeen]
    simp [chunkIds, Finset.union_assoc]

theorem gatheredItems_append (seen : Finset ChunkId) (first second : List EncodingRecord) :
    gatheredItems required seen (first ++ second) = gatheredItems required seen first ++
      gatheredItems required
        (seen ∪ (chunkIds ((gatheredItems required seen first).flatMap identities)).toFinset)
        second := by
  induction first generalizing seen with
  | nil => simp [gatheredItems, chunkIds]
  | cons record rest ih =>
    simp only [cons_append, gatheredItems, ih, append_assoc, flatMap_append]
    simp [chunkIds, Finset.union_assoc]

/-- A run over the victims gathers from their Records. They are in the pool, so that no replacement
is read in their place. -/
theorem Packs.victims {victims : List ContainerId}
    (stored : ∀ victim ∈ victims, ∃ container ∈ pool, container.containerId = victim)
    (packs : Packs pool required items state)
    (ran : victims.foldlM (collectVictim writer required) state = .ok next) :
    Packs pool required
      (items ++ gatheredItems required state.seen (victimRecords pool victims)) next := by
  induction victims generalizing items state with
  | nil =>
    cases ran
    simpa [victimRecords, gatheredItems] using packs
  | cons victim rest ih =>
    rw [foldlM_cons, bind_ok] at ran
    rw [forall_mem_cons] at stored
    rcases ran with ⟨middle, first, later⟩
    simp only [collectVictim, readVerifiedImage, bind_ok] at first
    rcases first with ⟨container, found, first⟩
    have located : pool.find? (fun container => decide (container.containerId = victim)) =
        some container := by
      rcases packs.onPool with ⟨added, onPool⟩
      rcases stored.1 with ⟨home, inPool, named⟩
      rw [onPool, find?_append] at found
      cases inside : pool.find? fun container => decide (container.containerId = victim) with
      | none => simpa [named] using find?_eq_none.mp inside home inPool
      | some other =>
        simp only [inside, Option.some_or, bind_ok, pure_ok] at found
        rcases found with ⟨_, _, rfl⟩
        rfl
    rcases packs.records first with ⟨after, seen⟩
    have whole := ih stored.2 after later
    rw [seen, append_assoc, ← gatheredItems_append] at whole
    have listed : victimRecords pool (victim :: rest) =
        container.records ++ victimRecords pool rest := by
      simp [victimRecords, located]
    rwa [listed]

theorem Packs.finishes (packs : Packs pool required items state) :
    Finishes writer required items state := by
  intro last planned closed planning
  rcases closeBatch_ok closed with ⟨batch, _, perm, same, counted⟩
  have ended : last.pending = [] ∧ last.containers.length = batchCount items := by
    simp only [and_true] at batch
    unfold batchCount
    rw [packs.filled]
    by_cases vacant : state.batch = []
    · rw [if_neg (not_not.mpr vacant)] at batch
      simp [batch, pending, vacant, packs.vacant.mp vacant]
    · rw [if_pos vacant] at batch
      simp [pending, batch, packs.vacant.not.mp vacant]
  have there : Placed required last.seen last.published := by
    rw [same]
    apply packs.placed.perm
    rw [Publishing.placed, ended.1, append_nil] at perm
    exact perm
  have known : ∀ chunk ∈ last.seen, chunk ∈ required := by
    intro chunk mem
    rw [there.seen, mem_toFinset] at mem
    rcases mem_map.mp mem with ⟨copy, inside, rfl⟩
    exact lookup_isSome.mp (by simp [there.requested copy inside])
  refine ⟨?_, ended.2, fun all => there.complete (there.card.symm.trans all)⟩
  rw [finishReplacements, closed, ok_bind, require, if_neg (not_not.mpr known), ok_bind, require]
  by_cases all : last.seen.card = required.count
  · have length := there.card.symm.trans all
    rw [if_neg (not_not.mpr all), ok_bind, require,
      if_neg (not_not.mpr ((counted packs.chunks).trans length)), ok_bind, planning, ok_bind,
      require, ended.2, if_neg (not_not.mpr all)]
    split_ifs <;> rfl
  · rw [if_pos all, if_pos all]
    rfl

theorem publishItems_gathers
    (allowed : ∀ item ∈ items, Admissible required item ∧
      item.chunkCount ≤ GC_REPLACEMENT_CHUNK_LIMIT)
    (ran : items.foldlM (publishItem writer) state = .ok next) :
    GathersAll writer required state items next := by
  induction items generalizing state with
  | nil =>
    cases ran
    exact .nil
  | cons item rest ih =>
    rw [foldlM_cons, bind_ok] at ran
    rw [forall_mem_cons] at allowed
    rcases ran with ⟨middle, first, later⟩
    exact .cons (publishItem_gathers allowed.1.1 first) allowed.1.2 (ih allowed.2 later)

end Packing

/-- Names the Containers by their generation. -/
def numberedWriter : ReplacementWriter where
  gcReplacementContainerId generation _ := ⟨Bytes.leEncode 16 generation, Bytes.length_leEncode ..⟩
  compresses _ := true
  recordLength _ _ := 0
  fileLength _ := 0

theorem length_tinyId (index : ℕ) : (Bytes.leEncode 32 index).length = 32 :=
  Bytes.length_leEncode ..

def tinyCopy (index : ℕ) : ChunkCopy :=
  (⟨Bytes.leEncode 32 index, length_tinyId index⟩, 2)

/-- A region of 512 KiB in one Record, a Record that repeats a Chunk of it, and a dependent one. -/
def mixedVictim : SealedContainer where
  containerId := Bytes.Fixed.zero 16
  containerGeneration := 0
  fileLength := 0
  records :=
    [⟨.zstd, 786432, [((tinyCopy 0).1, 262144), ((tinyCopy 1).1, 262144)], nofun⟩,
      ⟨.zstd, 4096, [((tinyCopy 1).1, 262144), tinyCopy 2], nofun⟩,
      ⟨.dependent ((tinyCopy 0).1, 262144), 4096, [tinyCopy 3], nofun⟩]

def mixedCoverage : Coverage :=
  ⟨[⟨(tinyCopy 0).1, 262144⟩, ⟨(tinyCopy 1).1, 262144⟩, ⟨(tinyCopy 2).1, 2⟩, ⟨(tinyCopy 3).1, 2⟩],
    show (List.keys _).Nodup by decide⟩

/-- Of five items of which a batch holds two there are three batches. -/
theorem publishCollectedItems_five {item : ℕ → GcReplacementItem} {required : Coverage}
    {size length : ℕ} (bytes : ∀ index, (item index).logicalBytes = .ok length)
    (counts : ∀ index, (item index).identities.length = size)
    (fits : size + size ≤ 32768) (beyond : 32768 < size + size + size) (short : length ≤ 65536)
    (distinct : (chunkIds (((range 5).map item).flatMap identities)).Nodup)
    (count : required.count = size + size + (size + size) + size)
    (planned : replacementContainerCountUpperBound required = .ok 2) :
    publishCollectedItems numberedWriter required [] 0 ((range 5).map item) =
      .error .assertion := by
  have items : (range 5).map item = [item 0, item 1, item 2, item 3, item 4] := rfl
  have named : leEncode 16 1 ≠ leEncode 16 2 ∧
      leEncode 16 1 ≠ leEncode 16 3 ∧ leEncode 16 2 ≠ leEncode 16 3 := by
    decide
  have small : size < 18446744073709551616 ∧ size + size < 18446744073709551616 ∧
      size + size + size < 18446744073709551616 ∧
      size + size + (size + size) < 18446744073709551616 ∧
      size + size + (size + size) + size < 18446744073709551616 ∧
      length < 18446744073709551616 ∧ length + length < 18446744073709551616 ∧
      length + length + length < 18446744073709551616 := by omega
  have light : ¬ 50331648 < length + length ∧ ¬ 50331648 < length + length + length ∧
      ¬ 32768 < size + size := by omega
  rw [items] at distinct ⊢
  have card := toFinset_card_of_nodup distinct
  simp only [chunkIds, flatMap_cons, flatMap_nil, append_nil, map_append,
    toFinset_append, length_append, length_map, counts] at card
  simp [publishCollectedItems, publishItem, pushItem, closeBatch, publishGcReplacementBatch,
    publishSealedResumable, require, checkedAdd, GC_REPLACEMENT_LOGICAL_TARGET_BYTES,
    GC_REPLACEMENT_CHUNK_LIMIT, chunkCount, bytes, counts, initial,
    replacementContainer, numberedWriter, small, light, beyond, named, finishReplacements, planned,
    count, card]
  repeat' split
  all_goals first | rfl | omega

/-- A Record of 11000 Chunks of two bytes. -/
def tinyItem (index : ℕ) : GcReplacementItem :=
  .transplanted
    { codec := .zstd
      recordLength := 786432
      chunks := (List.range' (11000 * index) 11000).map tinyCopy
      occupied := by simp }

theorem identities_tinyItem (count : ℕ) :
    ((range count).map tinyItem).flatMap identities =
      (range (11000 * count)).map tinyCopy := by
  induction count with
  | zero => rfl
  | succ count ih =>
      rw [range_succ, map_append, flatMap_append, ih, mul_succ,
        range_add, map_append, ← range'_eq_map_range]
      simp [tinyItem, identities]

theorem nodup_tinyCopy {count : ℕ} (small : count ≤ 2 ^ 32) :
    (chunkIds ((range count).map tinyCopy)).Nodup := by
  rw [chunkIds, map_map]
  refine List.Nodup.map_on ?_ nodup_range
  intro first inside second inside' same
  have encoded : leEncode 32 first = leEncode 32 second := congrArg Subtype.val same
  have wide : 2 ^ 32 ≤ 256 ^ 32 := by decide
  rw [mem_range] at inside inside'
  rw [← leDecode_leEncode_of_lt (inside.trans_le (small.trans wide)), encoded,
    leDecode_leEncode_of_lt (inside'.trans_le (small.trans wide))]

theorem exists_tiny_coverage {count : ℕ} (small : count ≤ 2 ^ 32) :
    ∃ required : Coverage, required.count = count ∧ required.logicalBytes = .ok (count * 2) ∧
      ∀ chunk ∈ (List.range count).map tinyCopy, required.lookup chunk.1 = some chunk.2 := by
  have keys : (((List.range count).map tinyCopy).map
      fun chunk => (⟨chunk.1, chunk.2⟩ : Sigma fun _ : ChunkId => ℕ)).NodupKeys := by
    rw [List.NodupKeys, List.keys, map_map]
    exact nodup_tinyCopy small
  refine ⟨⟨_, keys⟩, ?_, ?_, ?_⟩
  · simp [Coverage.count]
  · refine foldlM_checkedAdd_ok.mpr ⟨?_, by omega⟩
    simp [Function.comp_def, tinyCopy]
  · intro chunk mem
    exact mem_lookup_iff.mpr (mem_map_of_mem mem)

end Fastdup.Store.Maintenance
