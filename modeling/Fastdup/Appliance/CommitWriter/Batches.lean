import Fastdup.Appliance.CommitWriter
import Fastdup.Format.Container.Sealing

/-!
# Encoding one batch

The cut of a batch keeps its Chunks in order: it is a sequence of regions and single Chunks of
which the writer holds the three kinds apart. A batch is encoded by every compressor if and only
if its regions fit a Record and its RAW form fits a Container.
-/

namespace Fastdup.Appliance

open Library Checked Format Format.Container List Nat PreparedDependentRecord Codec

/-- What the writer may buffer: distinct Chunks of valid lengths. -/
structure Batch.Valid (batch : Batch) : Prop where
  occupied : batch.chunks ≠ []
  chunks : ∀ chunk ∈ batch.chunks, chunk.Valid
  distinct : batch.chunkIds.Nodup

/-- A dependent Record that the planner accepted for a Chunk. -/
structure Accepted (chunk : PrehashedChunk) (record : PreparedDependentRecord) : Prop where
  target : record.targetId = chunk.chunkId
  length : record.logicalLength = chunk.length
  base : record.dependencyId ≠ Bytes.Fixed.zero 32
  filled : match record with
    | .zstdPrefix _ _ _ _ frame => frame ≠ []
    | .sparseXor _ _ _ runCount xorBytes => runCount ≠ 0 ∧ xorBytes ≠ []
  cheaper : record.encodedPayloadBytes ≤ chunk.length

def PersistentChunkPlan.Sound (chunk : PrehashedChunk) : PersistentChunkPlan → Prop
  | .noCandidates | .independent => True
  | .dependent record => Accepted chunk record

def SimilarityPlanner.Sound (planner : SimilarityPlanner) : Prop :=
  ∀ chunks plans, planner chunks = some plans →
    List.Forall₂ PersistentChunkPlan.Sound chunks plans

variable {record : PreparedDependentRecord} {plan : PersistentChunkPlan}
  {planner : SimilarityPlanner}

theorem Accepted.recordLength {chunk : PrehashedChunk} (valid : chunk.Valid)
    (accepted : Accepted chunk record) : record.recordLength =
      recordLengthOf (RAW_PAYLOAD_OFFSET + record.payloadLength) ∧ 0 < record.payloadLength := by
  have length := accepted.length
  have filled := accepted.filled
  cases record with
  | zstdPrefix flex target dependency logicalLength frame =>
    obtain rfl : logicalLength = chunk.length := length
    have framed := length_pos_iff.mpr filled
    refine ⟨?_, framed⟩
    simp only [recordLength, zstdPrefixRecordLength,
      validateLogicalChunkLength_of_valid valid, ok_bind]
    rw [require, if_neg framed.ne', ok_bind]
    rfl
  | sparseXor target dependency logicalLength runCount xorBytes =>
    obtain rfl : logicalLength = chunk.length := length
    have mixed := length_pos_iff.mpr filled.2
    refine ⟨?_, ?_⟩
    · simp only [recordLength, sparseXorRecordLength,
        validateLogicalChunkLength_of_valid valid, ok_bind]
      rw [require, if_neg (not_or.mpr ⟨filled.1, mixed.ne'⟩), ok_bind]
      rfl
    · simp only [payloadLength]
      omega

theorem PreparedDependentRecord.payloadLength_le (record : PreparedDependentRecord) :
    record.payloadLength ≤ record.encodedPayloadBytes := by
  cases record with
  | zstdPrefix flex target dependency logicalLength frame
  | sparseXor target dependency logicalLength runCount xorBytes =>
    simp only [payloadLength, encodedPayloadBytes]
    omega

theorem Accepted.soundRecord {chunk : PrehashedChunk} (valid : chunk.Valid)
    (accepted : Accepted chunk record) : SoundRecord (.dependent record)
      (alignUp (RAW_PAYLOAD_OFFSET + record.payloadLength) RECORD_ALIGNMENT) := by
  obtain ⟨computed, filled⟩ := accepted.recordLength valid
  have payload := (PreparedDependentRecord.payloadLength_le record).trans accepted.cheaper
  have maximum : alignUp (RAW_PAYLOAD_OFFSET + record.payloadLength) RECORD_ALIGNMENT ≤
      MAX_RECORD_BYTES :=
    (alignUp_mono (by decide) (Nat.add_le_add_left payload _)).trans valid.rawLength_le
  obtain ⟨minimum, inside⟩ := minimum_of_payload (le_refl RAW_PAYLOAD_OFFSET) filled
  have logical := accepted.length
  exact
    { recordLength := computed.trans (recordLengthOf_ok.mpr ⟨rfl, maximum⟩)
      minimum := minimum
      maximum := maximum
      aligned := dvd_alignUp
      occupied := cons_ne_nil _ _
      entries := by
        intro entry mem
        rw [mem_singleton.mp mem]
        exact logical.symm ▸ valid
      covers := by simp [AdaptiveRecordPlan.chunkTable, AdaptiveRecordPlan.decodedLength]
      decoded := (logical.le.trans valid.2).trans (by decide)
      payload := ⟨filled, inside⟩
      codec := by
        have based : (AdaptiveRecordPlan.dependent record).chunkTable.length = 1 ∧
            ∃ base, (AdaptiveRecordPlan.dependent record).dependencyId = some base ∧
              base ≠ Bytes.Fixed.zero 32 := ⟨rfl, _, rfl, accepted.base⟩
        cases record with
        | zstdPrefix flex target dependency logicalLength frame =>
          cases flex with
          | false => exact based
          | true => exact based
        | sparseXor target dependency logicalLength runCount xorBytes => exact based }

/-- A part of a cut batch that becomes one record. -/
inductive Piece where
  | region (chunks : List PrehashedChunk)
  | independent (chunk : PrehashedChunk)
  | dependent (record : PreparedDependentRecord)

namespace Piece

def region? : Piece → Option (List PrehashedChunk)
  | .region chunks => some chunks
  | _ => none

def independent? : Piece → Option PrehashedChunk
  | .independent chunk => some chunk
  | _ => none

def dependent? : Piece → Option PreparedDependentRecord
  | .dependent record => some record
  | _ => none

def table : Piece → List (ChunkId × ℕ)
  | .region chunks => regionTable chunks
  | .independent chunk => [(chunk.chunkId, chunk.length)]
  | .dependent record => [(record.targetId, record.logicalLength)]

def limit : Piece → ℕ
  | .region chunks => rawBytes chunks
  | .independent chunk => chunk.rawLength
  | .dependent record => AdaptiveRecordPlan.size (.dependent record)

def Sound : Piece → Prop
  | .region chunks => Region chunks
  | .independent chunk => chunk.Valid
  | .dependent record =>
    SoundRecord (.dependent record) (AdaptiveRecordPlan.size (.dependent record))

end Piece

/-- The pieces in Chunk order behind a cut. -/
structure Placed (done : List (PrehashedChunk × PersistentChunkPlan)) (cut : CutBatch)
    (pieces : List Piece) : Prop where
  regions : cut.regions = pieces.filterMap Piece.region?
  independent : cut.independent = pieces.filterMap Piece.independent?
  dependents : cut.dependents = pieces.filterMap Piece.dependent?
  table : pieces.flatMap Piece.table = regionTable (done.map Prod.fst)
  sound : ∀ piece ∈ pieces, piece.Sound
  /-- The open region is the last piece. -/
  opened : cut.regionBytes ≠ 0 → ∃ earlier chunks, pieces = earlier ++ [.region chunks] ∧
    cut.regionBytes = decodedBytes chunks

variable {done : List (PrehashedChunk × PersistentChunkPlan)} {cut : CutBatch}
  {pieces : List Piece} {chunk : PrehashedChunk}

theorem region_snoc {chunks : List PrehashedChunk} (isRegion : Region chunks) (valid : chunk.Valid)
    (small : decodedBytes chunks + chunk.length ≤ COMPRESSION_REGION_TARGET_BYTES) :
    Region (chunks ++ [chunk]) where
  occupied := by simp
  valid := by
    exact forall_mem_append.mpr ⟨isRegion.valid, forall_mem_singleton.mpr valid⟩
  small := by
    have total : ((chunks ++ [chunk]).map PrehashedChunk.length).sum =
        decodedBytes chunks + chunk.length := by simp [decodedBytes]
    exact total.le.trans small

theorem pushLast_concat (earlier : List (List PrehashedChunk)) (last : List PrehashedChunk) :
    pushLast (earlier ++ [last]) chunk = .ok (earlier ++ [last ++ [chunk]]) := by
  simp [pushLast]

theorem Placed.apart (placed : Placed done cut pieces) {piece : Piece} {next : CutBatch}
    (sound : piece.Sound) (table : piece.table = [(chunk.chunkId, chunk.length)])
    (regions : next.regions = cut.regions ++ (Piece.region? piece).toList)
    (independent : next.independent = cut.independent ++ (Piece.independent? piece).toList)
    (dependents : next.dependents = cut.dependents ++ (Piece.dependent? piece).toList)
    (opened : next.regionBytes ≠ 0 → piece = .region [chunk] ∧ next.regionBytes = chunk.length) :
    Placed (done ++ [(chunk, plan)]) next (pieces ++ [piece]) where
  regions := by
    rw [regions, placed.regions, filterMap_append]
    cases piece <;> rfl
  independent := by
    rw [independent, placed.independent, filterMap_append]
    cases piece <;> rfl
  dependents := by
    rw [dependents, placed.dependents, filterMap_append]
    cases piece <;> rfl
  table := by
    rw [flatMap_append, placed.table, flatMap_singleton, table]
    simp [regionTable]
  sound := by
    exact forall_mem_append.mpr ⟨placed.sound, forall_mem_singleton.mpr sound⟩
  opened := by
    intro isOpen
    obtain ⟨rfl, bytes⟩ := opened isOpen
    exact ⟨pieces, [chunk], rfl, by simp [decodedBytes, bytes]⟩

theorem Placed.ordinary (placed : Placed done cut pieces) (valid : chunk.Valid) :
    ∃ next nextPieces, placeOrdinary cut chunk = .ok next ∧
      Placed (done ++ [(chunk, .noCandidates)]) next nextPieces := by
  obtain ⟨occupied, bounded⟩ := valid
  by_cases fresh : regionCursor cut chunk = 0
  · -- The Chunk starts a region.
    refine ⟨{ cut with regions := cut.regions ++ [[chunk]], regionBytes := chunk.length },
      pieces ++ [.region [chunk]], ?_, ?_⟩
    · have small : ¬ COMPRESSION_REGION_TARGET_BYTES < 0 + chunk.length := by
        unfold MAX_LOGICAL_CHUNK_BYTES at bounded
        unfold COMPRESSION_REGION_TARGET_BYTES
        omega
      simp only [placeOrdinary, fresh, if_true, pushLast_concat, ok_bind, nil_append]
      rw [require, if_neg small, ok_bind, zero_add]
      rfl
    · have isRegion : Piece.Sound (.region [chunk]) := region_single ⟨occupied, bounded⟩
      exact placed.apart isRegion rfl rfl (append_nil _).symm (append_nil _).symm
        fun _ => ⟨rfl, rfl⟩
  · -- The Chunk continues the open region.
    have kept : regionCursor cut chunk = cut.regionBytes := by
      unfold regionCursor at fresh ⊢
      split
      · rename_i exceeds
        rw [if_pos exceeds] at fresh
        exact absurd rfl fresh
      · rfl
    rw [kept] at fresh
    obtain ⟨earlier, chunks, rfl, bytes⟩ := placed.opened fresh
    have isRegion : Region chunks :=
      placed.sound (.region chunks) (mem_append_right _ mem_cons_self)
    have regions : cut.regions = earlier.filterMap Piece.region? ++ [chunks] := by
      rw [placed.regions]
      simp [Piece.region?]
    have small : cut.regionBytes + chunk.length ≤ COMPRESSION_REGION_TARGET_BYTES := by
      by_contra large
      have exceeds : cut.regions.getLast?.any (· ≠ []) ∧
          COMPRESSION_REGION_TARGET_BYTES < cut.regionBytes + chunk.length := by
        refine ⟨?_, Nat.lt_of_not_le large⟩
        rw [regions, getLast?_concat]
        simpa using isRegion.occupied
      have cursor : regionCursor cut chunk = 0 := if_pos exceeds
      omega
    refine ⟨{ cut with regions := earlier.filterMap Piece.region? ++ [chunks ++ [chunk]],
                       regionBytes := cut.regionBytes + chunk.length },
      earlier ++ [.region (chunks ++ [chunk])], ?_, ?_⟩
    · simp only [placeOrdinary, kept, fresh, if_false, regions, pushLast_concat, ok_bind]
      rw [require, if_neg (not_lt.mpr small), ok_bind]
      rfl
    · refine ⟨?_, ?_, ?_, ?_, ?_, ?_⟩
      · rw [filterMap_append]
        rfl
      · rw [placed.independent, filterMap_append, filterMap_append]
        rfl
      · rw [placed.dependents, filterMap_append, filterMap_append]
        rfl
      · have table := placed.table
        simp only [regionTable, flatMap_append, map_append] at table ⊢
        rw [← table]
        simp [Piece.table, regionTable]
      · intro piece mem
        rcases mem_append.mp mem with old | new
        · exact placed.sound piece (mem_append_left _ old)
        · rw [mem_singleton.mp new]
          exact region_snoc isRegion ⟨occupied, bounded⟩ (bytes ▸ small)
      · intro _
        exact ⟨earlier, _, rfl, by simp [decodedBytes, bytes]⟩

/-- One more Chunk of the batch finds its piece. -/
theorem Placed.step (placed : Placed done cut pieces) (valid : chunk.Valid)
    (sound : plan.Sound chunk) : ∃ next, placeChunk cut (chunk, plan) = .ok next ∧
      ∃ nextPieces, Placed (done ++ [(chunk, plan)]) next nextPieces := by
  cases plan with
  | noCandidates =>
    obtain ⟨next, nextPieces, placedNext, holds⟩ := placed.ordinary valid
    exact ⟨next, placedNext, nextPieces, holds⟩
  | independent =>
    have isValid : Piece.Sound (.independent chunk) := valid
    exact ⟨_, rfl, _, placed.apart isValid rfl (append_nil _).symm rfl (append_nil _).symm nofun⟩
  | dependent record =>
    have accepted : Accepted chunk record := sound
    have isSound : Piece.Sound (.dependent record) := (accepted.soundRecord valid).of_size
    have table : Piece.table (.dependent record) = [(chunk.chunkId, chunk.length)] := by
      rw [Piece.table, accepted.target, accepted.length]
    exact ⟨_, rfl, _, placed.apart isSound table (append_nil _).symm (append_nil _).symm rfl nofun⟩

theorem batchPlans_sound (sound : planner.Sound) (batch : Batch) :
    List.Forall₂ PersistentChunkPlan.Sound batch.chunks (batchPlans planner batch) := by
  have ordinary : List.Forall₂ PersistentChunkPlan.Sound batch.chunks
      (batch.chunks.map fun _ => .noCandidates) := by
    rw [forall₂_map_right_iff, forall₂_same]
    exact fun _ _ => trivial
  unfold batchPlans
  split
  · rename_i plans planned
    split at planned
    · exact sound _ _ planned
    · cases planned
  · exact ordinary

theorem cutBatch_of_valid (sound : planner.Sound) {batch : Batch} (valid : batch.Valid) :
    ∃ cut pieces, cutBatch planner batch = .ok cut ∧
      Placed (batch.chunks.zip (batchPlans planner batch)) cut pieces := by
  have plans := batchPlans_sound sound batch
  have length : ¬ (batchPlans planner batch).length ≠ batch.chunks.length :=
    not_not.mpr plans.length_eq.symm
  have steps : ∀ done cut, ∀ planned ∈ batch.chunks.zip (batchPlans planner batch),
      (∃ pieces, Placed done cut pieces) →
        ∃ next, placeChunk cut planned = .ok next ∧
          ∃ pieces, Placed (done ++ [planned]) next pieces := by
    rintro done cut ⟨chunk, plan⟩ mem ⟨pieces, placed⟩
    exact placed.step (valid.chunks chunk (of_mem_zip mem).1) ((forall₂_iff_zip.mp plans).2 mem)
  have start : ∃ pieces, Placed []
      { regions := [], independent := [], dependents := [], regionBytes := 0 } pieces :=
    ⟨[], rfl, rfl, rfl, rfl, nofun, fun opened => absurd rfl opened⟩
  obtain ⟨cut, folded, pieces, placed⟩ := foldlM_reaches steps start
  exact ⟨cut, pieces, bind_ok.mpr ⟨(), if_neg length, folded⟩, placed⟩

variable {codec : Codec} {bound : ℕ → ℕ} {gate : IncompressibilityGatePolicy}

/-- The segments of the pieces once the independent Records are prepared. -/
structure Prepared (codec : Codec) (pieces : List Piece) (segments : List Segment) : Prop where
  regions : segments.filterMap Segment.region? = pieces.filterMap Piece.region?
  independent : (pieces.filterMap Piece.independent?).mapM
    (preparePrehashedIndependentRecord codec) = .ok (segments.filterMap Segment.independent?)
  dependents : segments.filterMap Segment.dependent? = pieces.filterMap Piece.dependent?
  table : segmentTable segments = pieces.flatMap Piece.table
  sound : ∀ segment ∈ segments, segment.Sound
  limit : segmentLimit segments ≤ (pieces.map Piece.limit).sum
  refusing : codec = Codec.refusing → segmentLimit segments = (pieces.map Piece.limit).sum

theorem Prepared.cons {segments : List Segment} (prepared : Prepared codec pieces segments)
    {piece : Piece} {segment : Segment} (regions : (segment :: segments).filterMap Segment.region? =
      (piece :: pieces).filterMap Piece.region?)
    (independent : ((piece :: pieces).filterMap Piece.independent?).mapM
      (preparePrehashedIndependentRecord codec) =
        .ok ((segment :: segments).filterMap Segment.independent?))
    (dependents : (segment :: segments).filterMap Segment.dependent? =
      (piece :: pieces).filterMap Piece.dependent?)
    (table : segment.table = piece.table) (sound : segment.Sound)
    (limit : segment.limit ≤ piece.limit)
    (refusing : codec = Codec.refusing → segment.limit = piece.limit) :
    Prepared codec (piece :: pieces) (segment :: segments) where
  regions := regions
  independent := independent
  dependents := dependents
  table := by rw [segmentTable, flatMap_cons, flatMap_cons, ← prepared.table, table]; rfl
  sound := forall_mem_cons.mpr ⟨sound, prepared.sound⟩
  limit := Nat.add_le_add limit prepared.limit
  refusing refuses := congrArg₂ (· + ·) (refusing refuses) (prepared.refusing refuses)

theorem exists_prepared (within : codec.Within bound) (sound : ∀ piece ∈ pieces, piece.Sound) :
    ∃ segments, Prepared codec pieces segments := by
  induction pieces with
  | nil => exact ⟨[], rfl, rfl, rfl, rfl, nofun, le_rfl, fun _ => rfl⟩
  | cons piece rest ih =>
    obtain ⟨segments, prepared⟩ := ih (fun other mem => sound other (mem_cons_of_mem _ mem))
    have first := sound piece mem_cons_self
    cases piece with
    | region chunks =>
      exact ⟨.region chunks :: segments, prepared.cons (congrArg (chunks :: ·) prepared.regions)
        prepared.independent prepared.dependents rfl first le_rfl fun _ => rfl⟩
    | independent chunk =>
      obtain ⟨record, ran, same, isSound, short⟩ := prepare_of_valid first within
      have size : AdaptiveRecordPlan.size (.preparedIndependent record) = record.recordLength :=
        isSound.size_eq
      refine ⟨.independent record :: segments, prepared.cons prepared.regions ?_
        prepared.dependents ?_ isSound.of_size (size.trans_le short) ?_⟩
      · rw [mapM_ok]
        exact .cons ran (mapM_ok.mp prepared.independent)
      · simp only [Segment.table, AdaptiveRecordPlan.chunkTable, same, Piece.table]
      · rintro rfl
        exact size.trans (prepare_refusing first ran)
    | dependent record =>
      exact ⟨.dependent record :: segments, prepared.cons prepared.regions prepared.independent
        (congrArg (record :: ·) prepared.dependents) rfl first le_rfl fun _ => rfl⟩

def CutBatch.rawBytes (cut : CutBatch) : ℕ :=
  (cut.regions.map Format.Container.rawBytes).sum +
    (cut.independent.map PrehashedChunk.rawLength).sum +
    (cut.dependents.map fun record => AdaptiveRecordPlan.size (.dependent record)).sum

theorem Placed.rawBytes_eq (placed : Placed done cut pieces) :
    cut.rawBytes = (pieces.map Piece.limit).sum := by
  unfold CutBatch.rawBytes
  rw [placed.regions, placed.independent, placed.dependents]
  clear placed
  induction pieces with
  | nil => rfl
  | cons piece rest ih =>
    cases piece with
    | region chunks | independent chunk | dependent record =>
      simp only [filterMap_cons, Piece.region?, Piece.independent?, Piece.dependent?,
        map_cons, sum_cons, Piece.limit]
      omega

/-- Every region of the batch fits a Record, and its RAW form a Container. -/
def Batch.Fits (bound : ℕ → ℕ) (gate : IncompressibilityGatePolicy) (planner : SimilarityPlanner)
    (batch : Batch) : Prop :=
  ∀ cut, cutBatch planner batch = .ok cut →
    (∀ region ∈ cut.regions, RegionFits bound gate region) ∧
      sealedLength cut.rawBytes batch.chunks.length ≤ MAX_CONTAINER_BYTES

variable {environment : CommitEnvironment} {batch : Batch} {ordinal : ℕ}

theorem ids_of_table {segments : List Segment}
    (table : segmentTable segments = regionTable batch.chunks) :
    (segmentTable segments).map Prod.fst = batch.chunkIds := by
  rw [table, regionTable, map_map]
  rfl

theorem exists_segments (plannerSound : environment.planner.Sound) (valid : batch.Valid)
    (within : environment.codec.Within bound) :
    ∃ cut pieces segments, cutBatch environment.planner batch = .ok cut ∧
      Placed (batch.chunks.zip (batchPlans environment.planner batch)) cut pieces ∧
      Prepared environment.codec pieces segments ∧ segments ≠ [] ∧
      segmentTable segments = regionTable batch.chunks ∧ encodeBatch environment ordinal batch =
        (encodeSegments environment.codec environment.gate (environment.reserveGeneration ordinal)
          segments >>= fun encoding => do
            require (∃ location ∈ encoding.locations, ¬ location.Valid) FormatError.assertion
            pure encoding) := by
  obtain ⟨cut, pieces, ran, placed⟩ := cutBatch_of_valid plannerSound valid
  obtain ⟨segments, prepared⟩ := exists_prepared within placed.sound
  have zipped : (batch.chunks.zip (batchPlans environment.planner batch)).map Prod.fst =
      batch.chunks :=
    map_fst_zip (batchPlans_sound plannerSound batch).length_eq.le
  have table : segmentTable segments = regionTable batch.chunks := by
    rw [prepared.table, placed.table, zipped]
  have occupied : segments ≠ [] := by
    rintro rfl
    have empty : regionTable batch.chunks = [] := table.symm
    exact valid.occupied (map_eq_nil_iff.mp empty)
  refine ⟨cut, pieces, segments, ran, placed, prepared, occupied, table, ?_⟩
  unfold encodeBatch encodeSegments
  rw [ran, ok_bind, placed.independent, prepared.independent, ok_bind, ids_of_table table,
    prepared.regions, prepared.dependents, ← placed.regions, ← placed.dependents]

theorem checked_of_sealed {encoding : AdaptiveContainerEncoding} {order : List ChunkId}
    (isSealed : Sealed order encoding) :
    (do require (∃ location ∈ encoding.locations, ¬ location.Valid) FormatError.assertion
        pure encoding : Except FormatError AdaptiveContainerEncoding) = .ok encoding := by
  have accepted : ¬ ∃ location ∈ encoding.locations, ¬ location.Valid := by
    rintro ⟨location, mem, invalid⟩
    exact invalid (isSealed.locations location mem)
  exact bind_ok.mpr ⟨(), if_neg accepted, rfl⟩

variable (plannerSound : environment.planner.Sound) (valid : batch.Valid)

include plannerSound valid

theorem encodeBatch_cases (within : environment.codec.Within bound) :
    (∃ encoding, encodeBatch environment ordinal batch = .ok encoding ∧
        Sealed batch.chunkIds encoding) ∨
      ∃ error, encodeBatch environment ordinal batch = .error error ∧ error ≠ .assertion := by
  obtain ⟨cut, pieces, segments, _, _, prepared, occupied, table, computed⟩ :=
    @exists_segments bound environment batch ordinal plannerSound valid within
  have ids := ids_of_table table
  rw [computed]
  rcases @encodeSegments_cases _ segments _ bound environment.gate (environment.reserved ordinal)
    occupied within prepared.sound (ids ▸ valid.distinct) with
    ⟨encoding, encoded, isSealed⟩ | ⟨error, failed, unasserted⟩
  · rw [encoded, ok_bind, checked_of_sealed isSealed]
    exact .inl ⟨encoding, rfl, ids ▸ isSealed⟩
  · rw [failed, error_bind]
    exact .inr ⟨error, rfl, unasserted⟩

theorem encodeBatch_of_fits (within : environment.codec.Within bound)
    (fits : batch.Fits bound environment.gate environment.planner) :
    ∃ encoding, encodeBatch environment ordinal batch = .ok encoding ∧
      Sealed batch.chunkIds encoding := by
  obtain ⟨cut, pieces, segments, ran, placed, prepared, occupied, table, computed⟩ :=
    @exists_segments bound environment batch ordinal plannerSound valid within
  have ids := ids_of_table table
  obtain ⟨regions, short⟩ := fits cut ran
  have length : (segmentTable segments).length = batch.chunks.length := by
    rw [table, regionTable, length_map]
  have limit : segmentLimit segments ≤ cut.rawBytes := placed.rawBytes_eq ▸ prepared.limit
  obtain ⟨encoding, encoded, isSealed⟩ := @encodeSegments_of_fits _ segments _ bound
    environment.gate (environment.reserved ordinal) occupied within prepared.sound
    (ids ▸ valid.distinct)
    (by rw [prepared.regions, ← placed.regions]; exact regions)
    (by rw [length]; exact (sealedLength_mono _ limit).trans short)
  refine ⟨encoding, ?_, ids ▸ isSealed⟩
  rw [computed, encoded, ok_bind, checked_of_sealed isSealed]

theorem fits_of_extremes
    (greedy : ∃ encoding, encodeBatch (environment.withCodec (greedy bound)) ordinal batch =
      .ok encoding)
    (refusing : ∃ encoding, encodeBatch (environment.withCodec refusing) ordinal batch =
      .ok encoding) : batch.Fits bound environment.gate environment.planner := by
  intro cut ran
  constructor
  · obtain ⟨encoding, encoded⟩ := greedy
    obtain ⟨greedyCut, pieces, segments, cutAgain, placed, prepared, occupied, _, computed⟩ :=
      @exists_segments bound (environment.withCodec (greedy bound)) batch ordinal plannerSound
        valid (greedy_within bound)
    obtain rfl : greedyCut = cut := Except.ok.inj (cutAgain.symm.trans ran)
    rw [computed, bind_ok] at encoded
    obtain ⟨_, sealedSegments, _⟩ := encoded
    rw [placed.regions, ← prepared.regions]
    exact regions_fit_of_greedy occupied prepared.sound sealedSegments
  · obtain ⟨encoding, encoded⟩ := refusing
    obtain ⟨rawCut, pieces, segments, cutAgain, placed, prepared, occupied, table, computed⟩ :=
      @exists_segments bound (environment.withCodec refusing) batch ordinal plannerSound
        valid (refusing_within bound)
    obtain rfl : rawCut = cut := Except.ok.inj (cutAgain.symm.trans ran)
    rw [computed, bind_ok] at encoded
    obtain ⟨_, sealedSegments, _⟩ := encoded
    have short := short_of_refusing (environment.reserved ordinal) occupied prepared.sound
      sealedSegments
    rw [prepared.refusing rfl, ← placed.rawBytes_eq, table, regionTable, length_map] at short
    exact short

end Fastdup.Appliance
