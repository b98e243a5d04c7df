import Fastdup.Format.Container.Regions
import Mathlib.Algebra.Order.BigOperators.Group.List
import Mathlib.Algebra.BigOperators.Ring.List
import Mathlib.Data.List.Dedup

/-!
# Sealing a Container

Records that are sound one by one are sealed in one Container when its length stays within the
limit: the summary always agrees with the layout, the Locations are accepted by the Exact Index,
and the Records come out in the order of the Chunks.
-/

namespace Fastdup.Format.Container

open Library Checked List CodecTotals Nat ContainerIntrinsicSummary AdaptiveRecordPlan

/-- The length of the Container of Records of a total length with so many Chunks. -/
def sealedLength (recordBytes chunks : ℕ) : ℕ :=
  alignUp (HEADER_BYTES + recordBytes + (INDEX_HEADER_BYTES + chunks * INDEX_ENTRY_BYTES))
    FOOTER_BYTES + FOOTER_BYTES

theorem sealedLength_mono {shorter longer : ℕ} (chunks : ℕ) (below : shorter ≤ longer) :
    sealedLength shorter chunks ≤ sealedLength longer chunks := by
  unfold sealedLength
  have aligned := alignUp_mono (by decide : 0 < FOOTER_BYTES)
    (by omega : HEADER_BYTES + shorter + (INDEX_HEADER_BYTES + chunks * INDEX_ENTRY_BYTES) ≤
      HEADER_BYTES + longer + (INDEX_HEADER_BYTES + chunks * INDEX_ENTRY_BYTES))
  omega

/-- Lengths of a record that its header can carry. -/
structure RecordGeometry.Sound (geometry : RecordGeometry) : Prop where
  decoded : 0 < geometry.decodedBytes
  chunks : 0 < geometry.chunkCount
  encoded : 0 < geometry.encodedBytes
  aligned : RECORD_ALIGNMENT ∣ geometry.encodedBytes
  codec : match geometry.codecId with
    | .raw | .zstd => geometry.dependencyId = none
    | .zstdPrefix | .zstdPrefixFlex | .sparseXor =>
      geometry.chunkCount = 1 ∧
        ∃ base, geometry.dependencyId = some base ∧ base ≠ Bytes.Fixed.zero 32

/-- The summary accounts for Records with so many Chunks and bytes. -/
structure Accounts (summary : ContainerIntrinsicSummary) (records chunks bytes : ℕ) : Prop where
  recordTotal : summary.raw.recordCount + summary.zstd.recordCount +
    summary.zstdPrefix.recordCount + summary.sparseXor.recordCount = records
  shapeTotal : summary.singleChunkRecordCount + summary.multiChunkRecordCount = records
  chunkTotal : summary.independentChunkCount + summary.dependentChunkCount = chunks
  byteTotal : summary.raw.encodedBytes + summary.zstd.encodedBytes +
    summary.zstdPrefix.encodedBytes + summary.sparseXor.encodedBytes = bytes
  edges : summary.dependentChunkCount = summary.outgoingDependencyEdges
  dependents : summary.zstdPrefix.recordCount + summary.sparseXor.recordCount =
    summary.outgoingDependencyEdges
  bases : summary.outgoingBaseIds.length = summary.outgoingDependencyEdges
  raws : summary.raw.recordCount ≤ summary.independentChunkCount
  raw : summary.raw.Consistent
  zstd : summary.zstd.Consistent
  zstdPrefix : summary.zstdPrefix.Consistent
  sparseXor : summary.sparseXor.Consistent

variable {summary : ContainerIntrinsicSummary} {geometry : RecordGeometry}
  {records chunks bytes : ℕ}

theorem CodecTotals.consistent_zero : zero.Consistent :=
  ⟨Iff.rfl, Iff.rfl, dvd_zero _⟩

theorem CodecTotals.Consistent.add {totals : CodecTotals} (consistent : totals.Consistent)
    (sound : geometry.Sound) : (totals.add geometry).Consistent := by
  have encoded := sound.encoded
  have decoded := sound.decoded
  refine ⟨?_, ?_, dvd_add consistent.2.2 sound.aligned⟩
  · simp only [CodecTotals.add]
    omega
  · simp only [CodecTotals.add]
    omega

theorem accounts_empty : Accounts empty 0 0 0 where
  recordTotal := rfl
  shapeTotal := rfl
  chunkTotal := rfl
  byteTotal := rfl
  edges := rfl
  dependents := rfl
  bases := rfl
  raws := le_rfl
  raw := consistent_zero
  zstd := consistent_zero
  zstdPrefix := consistent_zero
  sparseXor := consistent_zero

theorem counted_eq (summary : ContainerIntrinsicSummary) (geometry : RecordGeometry) :
    ∃ single multi, summary.counted geometry =
        { summary with singleChunkRecordCount := single, multiChunkRecordCount := multi } ∧
      single + multi = summary.singleChunkRecordCount + summary.multiChunkRecordCount + 1 := by
  unfold counted
  split
  · exact ⟨_, _, rfl, by omega⟩
  · exact ⟨_, _, rfl, by omega⟩

theorem Accounts.observe (accounts : Accounts summary records chunks bytes)
    (sound : geometry.Sound) : ∃ next, summary.observe geometry = .ok next ∧
      Accounts next (records + 1) (chunks + geometry.chunkCount)
        (bytes + geometry.encodedBytes) := by
  have accepted : ¬ (geometry.decodedBytes = 0 ∨ geometry.chunkCount = 0) := by
    have decoded := sound.decoded
    have counted := sound.chunks
    omega
  unfold ContainerIntrinsicSummary.observe
  rw [require, if_neg accepted, ok_bind]
  obtain ⟨single, multi, counted, shapes⟩ := counted_eq summary geometry
  rw [counted]
  obtain ⟨total, oldShapes, oldChunks, oldBytes, edges, dependents, bases, raws, raw, zstd,
    prefixes, xors⟩ := accounts
  have codec := sound.codec
  cases kind : geometry.codecId with
  -- one of the four totals takes the record in
  | raw | zstd =>
    rw [kind] at codec
    simp only [ContainerIntrinsicSummary.observeCodec, kind, codec,
      ContainerIntrinsicSummary.withIndependent]
    refine ⟨_, rfl, ?_⟩
    constructor
    case raw => first | exact raw | exact raw.add sound
    case zstd => first | exact zstd | exact zstd.add sound
    case zstdPrefix => exact prefixes
    case sparseXor => exact xors
    all_goals (simp only [add]; omega)
  | zstdPrefix | zstdPrefixFlex | sparseXor =>
    rw [kind] at codec
    obtain ⟨one, base, dependency, nonzero⟩ := codec
    simp only [ContainerIntrinsicSummary.observeCodec, kind, dependency,
      if_pos (And.intro nonzero one), ContainerIntrinsicSummary.withDependent]
    refine ⟨_, rfl, ?_⟩
    constructor
    case raw => exact raw
    case zstd => exact zstd
    case zstdPrefix => first | exact prefixes | exact prefixes.add sound
    case sparseXor => first | exact xors | exact xors.add sound
    all_goals (simp only [add, length_append, length_singleton]; omega)

theorem Accounts.valid (accounts : Accounts summary records chunks bytes) :
    summary.Valid (layoutOf records chunks bytes) := by
  have bases := accounts.bases
  have fewer : summary.uniqueOutgoingBaseIds ≤ summary.outgoingBaseIds.length :=
    (dedup_sublist _).length_le
  have none : summary.uniqueOutgoingBaseIds = 0 ↔ summary.outgoingBaseIds.length = 0 := by
    rw [uniqueOutgoingBaseIds, length_eq_zero_iff,
      dedup_eq_nil, length_eq_zero_iff]
  refine ⟨accounts.recordTotal, accounts.shapeTotal, accounts.chunkTotal, ?_, accounts.edges,
    accounts.dependents, by omega, by omega, accounts.raws, accounts.raw, accounts.zstd,
    accounts.zstdPrefix, accounts.sparseXor⟩
  rw [accounts.byteTotal]
  rfl

theorem layoutOf_valid (some : 0 < records) (covered : records ≤ chunks)
    (long : records * MIN_RAW_RECORD_BYTES ≤ bytes) (aligned : RECORD_ALIGNMENT ∣ bytes)
    (fits : sealedLength bytes chunks ≤ MAX_CONTAINER_BYTES) :
    (layoutOf records chunks bytes).Valid := by
  have footer : FOOTER_BYTES ∣ (layoutOf records chunks bytes).footerOffset := dvd_alignUp
  refine ⟨some.ne', ?_, covered, le_add_right _ _, dvd_add (by decide) aligned, footer,
    fits, dvd_add footer (dvd_refl _), ?_, rfl, rfl, rfl⟩
  · simp only [layoutOf]
    omega
  · simp only [layoutOf]
    omega

variable {record : AdaptiveRecordPlan} {length generation offset : ℕ} {segments : List Segment}
  {ordered : List AdaptiveRecordPlan} {encoding : AdaptiveContainerEncoding}

theorem SoundRecord.measured (sound : SoundRecord record length) :
    ∃ geometry, recordGeometry record = .ok geometry ∧ geometry.Sound ∧
      geometry.encodedBytes = length ∧ geometry.chunkCount = record.chunkTable.length := by
  refine ⟨_, bind_ok.mpr ⟨length, sound.recordLength, rfl⟩, ?_, rfl, rfl⟩
  have minimum := sound.minimum
  unfold MIN_RAW_RECORD_BYTES at minimum
  refine ⟨?_, length_pos_iff.mpr sound.occupied, by simp only; omega, sound.aligned, ?_⟩
  · obtain ⟨entry, rest, table⟩ := exists_cons_of_ne_nil sound.occupied
    have first := (sound.entries entry (table ▸ mem_cons_self)).1
    have covers := sound.covers
    rw [table, map_cons, sum_cons] at covers
    simp only
    omega
  · have codec := sound.codec
    cases kind : record.codecId with
    | raw =>
      rw [kind] at codec
      exact codec.1
    | zstd | zstdPrefix | zstdPrefixFlex | sparseXor =>
      rw [kind] at codec
      exact codec

def chunkCount (records : List AdaptiveRecordPlan) : ℕ :=
  (records.map fun record => record.chunkTable.length).sum

def recordBytes (records : List AdaptiveRecordPlan) : ℕ :=
  (records.map AdaptiveRecordPlan.size).sum

/-- The counters are those of the records passed so far. -/
structure Counted (records : List AdaptiveRecordPlan) (count : LayoutCount) : Prop where
  accounts : Accounts count.summary records.length (chunkCount records) (recordBytes records)
  chunks : count.chunkEntryCount = chunkCount records
  bytes : count.recordBytes = recordBytes records

variable {plans : List AdaptiveRecordPlan}

theorem countRecord_of_sound {count : LayoutCount} (sound : SoundRecord record record.size)
    (counted : Counted plans count) :
    ∃ next, countRecord count record = .ok next ∧ Counted (plans ++ [record]) next := by
  obtain ⟨geometry, measured, soundGeometry, bytes, chunks⟩ := sound.measured
  obtain ⟨summary, observed, accounts⟩ := counted.accounts.observe soundGeometry
  refine ⟨_, bind_ok.mpr ⟨geometry, measured, bind_ok.mpr ⟨summary, observed, rfl⟩⟩, ?_⟩
  have chunkSum : chunkCount (plans ++ [record]) = chunkCount plans + geometry.chunkCount := by
    simp [chunkCount, chunks]
  have byteSum : recordBytes (plans ++ [record]) = recordBytes plans + geometry.encodedBytes := by
    simp [recordBytes, bytes]
  refine ⟨?_, ?_, ?_⟩
  · rw [chunkSum, byteSum, length_append, length_singleton]
    exact accounts
  · rw [chunkSum, ← counted.chunks]
  · rw [byteSum, ← counted.bytes]

section Records

section

variable (sound : ∀ record ∈ plans, SoundRecord record record.size)

include sound

theorem length_le_chunkCount : plans.length ≤ chunkCount plans := by
  have counted := length_le_sum_of_one_le (plans.map fun record => record.chunkTable.length) (by
      intro count mem
      obtain ⟨record, inPlans, rfl⟩ := mem_map.mp mem
      exact length_pos_iff.mpr (sound record inPlans).occupied)
  rwa [length_map] at counted

theorem recordBytes_ge : plans.length * MIN_RAW_RECORD_BYTES ≤ recordBytes plans := by
  have bounded := card_nsmul_le_sum (plans.map (·.size)) MIN_RAW_RECORD_BYTES
    (by
    intro size mem
    obtain ⟨record, inPlans, rfl⟩ := mem_map.mp mem
    exact (sound record inPlans).minimum)
  rwa [length_map, nsmul_eq_mul, cast_id] at bounded

theorem recordBytes_aligned : RECORD_ALIGNMENT ∣ recordBytes plans := by
  refine dvd_sum ?_
  intro size mem
  obtain ⟨record, inPlans, rfl⟩ := mem_map.mp mem
  exact (sound record inPlans).aligned

end

theorem adaptiveContainerLayout_eq (occupied : plans ≠ [])
    (sound : ∀ record ∈ plans, SoundRecord record record.size) :
    ∃ summary, adaptiveContainerLayout plans =
      if sealedLength (recordBytes plans) (chunkCount plans) ≤ MAX_CONTAINER_BYTES then
        .ok (layoutOf plans.length (chunkCount plans) (recordBytes plans), summary)
      else .error .invalidContainerLayout := by
  have steps : ∀ done count, ∀ record ∈ plans, Counted done count →
      ∃ next, countRecord count record = .ok next ∧ Counted (done ++ [record]) next :=
    fun done count record mem counted => countRecord_of_sound (sound record mem) counted
  have start : Counted []
      { summary := empty, chunkEntryCount := 0, recordBytes := 0 } :=
    ⟨accounts_empty, rfl, rfl⟩
  obtain ⟨count, folded, accounts, chunks, bytes⟩ := foldlM_reaches steps start
  rw [nil_append] at accounts chunks bytes
  refine ⟨count.summary, ?_⟩
  unfold adaptiveContainerLayout
  rw [require, if_neg occupied, ok_bind, folded, ok_bind, chunks, bytes]
  split
  · rename_i fits
    have valid := layoutOf_valid (length_pos_iff.mpr occupied) (length_le_chunkCount sound)
      (recordBytes_ge sound) (recordBytes_aligned sound) fits
    simp only [require, valid, accounts.valid, not_true, if_false, ok_bind]
    rfl
  · rename_i long
    have invalid : ¬ (layoutOf plans.length (chunkCount plans) (recordBytes plans)).Valid :=
      fun valid => long valid.2.2.2.2.2.2.1
    simp [require, invalid]

end Records

theorem mem_chunkLocations {ordinal decodedOffset : ℕ} {table : List (ChunkId × ℕ)}
    {location : VerifiedChunkLocation}
    (mem : location ∈ chunkLocations generation offset length record ordinal decodedOffset table) :
    ∃ before entry after, table = before ++ entry :: after ∧
      location = { chunkId := entry.1, logicalLength := entry.2, containerGeneration := generation,
                   recordOffset := offset, recordLength := length,
                   chunkOrdinal := ordinal + before.length,
                   decodedOffset := decodedOffset + (before.map Prod.snd).sum,
                   codecId := record.codecId, dependencyId := record.dependencyId,
                   recordDecodedLength := record.decodedLength,
                   recordPayloadLength := record.payloadLength } := by
  induction table generalizing ordinal decodedOffset with
  | nil => cases mem
  | cons entry rest ih =>
    rcases mem_cons.mp mem with rfl | later
    · exact ⟨[], entry, rest, rfl, rfl⟩
    · obtain ⟨before, found, after, rfl, rfl⟩ := ih later
      refine ⟨entry :: before, found, after, rfl, ?_⟩
      simp only [length_cons, map_cons, sum_cons]
      congr 1 <;> omega

theorem SoundRecord.locations_valid (sound : SoundRecord record length) (reserved : generation ≠ 0)
    (behindHeader : HEADER_BYTES ≤ offset) (aligned : RECORD_ALIGNMENT ∣ offset)
    (inside : offset + length ≤ MAX_CONTAINER_BYTES) :
    ∀ location ∈ chunkLocations generation offset length record 0 0 record.chunkTable,
      location.Valid := by
  intro location mem
  obtain ⟨before, entry, after, table, rfl⟩ := mem_chunkLocations mem
  have isEntry : entry ∈ record.chunkTable := by
    rw [table]
    exact mem_append_right _ mem_cons_self
  obtain ⟨positive, small⟩ := sound.entries entry isEntry
  have covers := sound.covers
  rw [table, map_append, map_cons, sum_append_nat, sum_cons] at covers
  -- A Record with one Chunk has its entry at the start of the table.
  have single : record.chunkTable.length = 1 → before = [] ∧ after = [] := by
    intro one
    rw [table, length_append, length_cons] at one
    exact ⟨eq_nil_of_length_eq_zero (by omega), eq_nil_of_length_eq_zero (by omega)⟩
  refine ⟨positive, small, ⟨behindHeader, aligned, sound.minimum, sound.aligned, sound.maximum,
    inside⟩, reserved, ?_⟩
  have codec := sound.codec
  cases kind : record.codecId with
  | raw =>
    rw [kind] at codec
    obtain ⟨independent, one, payload, size⟩ := codec
    obtain ⟨rfl, rfl⟩ := single one
    simp only [map_nil, sum_nil] at covers
    have whole : record.decodedLength = entry.2 := by omega
    exact ⟨independent, rfl, rfl, whole, payload.trans whole, whole ▸ size⟩
  | zstd =>
    rw [kind] at codec
    refine ⟨codec, ?_, sound.decoded, sound.payload.1, sound.payload.2, ?_⟩
    · simp only
      omega
    · simp only
      omega
  | zstdPrefix | zstdPrefixFlex | sparseXor =>
    rw [kind] at codec
    obtain ⟨one, base, dependency, nonzero⟩ := codec
    obtain ⟨rfl, rfl⟩ := single one
    simp only [map_nil, sum_nil] at covers
    have whole : record.decodedLength = entry.2 := by omega
    exact ⟨by simp [dependency], by simpa [dependency] using nonzero, rfl, rfl, whole,
      sound.payload.1, sound.payload.2⟩

theorem recordLocations_of_sound (sound : ∀ record ∈ plans, SoundRecord record record.size)
    (reserved : generation ≠ 0) (behindHeader : HEADER_BYTES ≤ offset)
    (aligned : RECORD_ALIGNMENT ∣ offset)
    (inside : offset + recordBytes plans ≤ MAX_CONTAINER_BYTES) :
    ∃ locations, recordLocations generation offset plans = .ok locations ∧
      ∀ location ∈ locations, location.Valid := by
  induction plans generalizing offset with
  | nil => exact ⟨[], rfl, nofun⟩
  | cons record rest ih =>
    have first := sound record mem_cons_self
    have total : recordBytes (record :: rest) = record.size + recordBytes rest := by
      simp [recordBytes]
    obtain ⟨others, located, valid⟩ := ih (fun other mem => sound other (mem_cons_of_mem _ mem))
      (behindHeader.trans (le_add_right _ _)) (dvd_add aligned first.aligned)
      (by omega : offset + record.size + recordBytes rest ≤ MAX_CONTAINER_BYTES)
    refine ⟨_, bind_ok.mpr ⟨_, first.recordLength, bind_ok.mpr ⟨others, located, rfl⟩⟩, ?_⟩
    intro location mem
    rcases mem_append.mp mem with here | later
    · exact first.locations_valid reserved behindHeader aligned (by omega) location here
    · exact valid location later

/-- One piece of a batch: a Compression Region or a prepared Record. -/
inductive Segment where
  | region (chunks : List PrehashedChunk)
  | independent (record : PreparedIndependentRecord)
  | dependent (record : PreparedDependentRecord)

namespace Segment

def table : Segment → List (ChunkId × ℕ)
  | .region chunks => regionTable chunks
  | .independent record => AdaptiveRecordPlan.chunkTable (.preparedIndependent record)
  | .dependent record => AdaptiveRecordPlan.chunkTable (.dependent record)

/-- The length of the Records when no region is compressed. -/
def limit : Segment → ℕ
  | .region chunks => rawBytes chunks
  | .independent record => AdaptiveRecordPlan.size (.preparedIndependent record)
  | .dependent record => AdaptiveRecordPlan.size (.dependent record)

def Sound : Segment → Prop
  | .region chunks => Region chunks
  | .independent record =>
    SoundRecord (.preparedIndependent record)
      (AdaptiveRecordPlan.size (.preparedIndependent record))
  | .dependent record =>
    SoundRecord (.dependent record) (AdaptiveRecordPlan.size (.dependent record))

def region? : Segment → Option (List PrehashedChunk)
  | .region chunks => some chunks
  | _ => none

def independent? : Segment → Option PreparedIndependentRecord
  | .independent record => some record
  | _ => none

def dependent? : Segment → Option PreparedDependentRecord
  | .dependent record => some record
  | _ => none

end Segment

def segmentTable (segments : List Segment) : List (ChunkId × ℕ) :=
  segments.flatMap Segment.table

/-- The raw lengths of the segments, which their records do not exceed. -/
def segmentLimit (segments : List Segment) : ℕ :=
  (segments.map Segment.limit).sum

/-- The Records of a batch before they are put in order. -/
def collected (encoded : List (List AdaptiveRecordPlan)) (segments : List Segment) :
    List AdaptiveRecordPlan :=
  encoded.flatten ++ (segments.filterMap Segment.independent?).map .preparedIndependent ++
    (segments.filterMap Segment.dependent?).map .dependent

variable {codec : Codec} {bound : ℕ → ℕ} {gate : IncompressibilityGatePolicy}

/-- Encoded one by one, the segments give Records in Chunk order, of which the collected Records
are a rearrangement. -/
theorem exists_ordered (within : codec.Within bound) (sound : ∀ segment ∈ segments, segment.Sound)
    (encodable : ∀ region ∈ segments.filterMap Segment.region?, ∃ records,
      encodeAdaptiveRegion codec region gate = .ok records) : ∃ encoded ordered,
      (segments.filterMap Segment.region?).mapM (fun region =>
        encodeAdaptiveRegion codec region gate) = .ok encoded ∧
      (collected encoded segments).Perm ordered ∧
      Encodes (segmentTable segments) (segmentLimit segments) ordered := by
  induction segments with
  | nil => exact ⟨[], [], rfl, .refl _, rfl, nofun, le_rfl⟩
  | cons segment rest ih =>
    have laterSound : ∀ other ∈ rest, other.Sound :=
      fun other mem => sound other (mem_cons_of_mem _ mem)
    have first := sound segment mem_cons_self
    cases segment with
    | region chunks =>
      have isRegion : Region chunks := first
      have encodes := (isRegion.encode_cases gate within).resolve_right (by
        rintro ⟨_, failed, _⟩
        obtain ⟨_, ran⟩ := encodable chunks mem_cons_self
        cases failed.symm.trans ran)
      obtain ⟨records, ran, table, recordsSound, short⟩ := encodes
      obtain ⟨encoded, ordered, mapped, perm, laterTable, orderedSound, laterShort⟩ :=
        ih laterSound (fun region mem => encodable region (mem_cons_of_mem _ mem))
      refine ⟨records :: encoded, records ++ ordered, ?_, ?_, ?_, ?_, ?_⟩
      · simp only [filterMap_cons, Segment.region?, mapM_ok] at mapped ⊢
        exact .cons ran mapped
      · simp only [collected, filterMap_cons, Segment.independent?, Segment.dependent?,
          flatten_cons, append_assoc] at perm ⊢
        exact perm.append_left records
      · rw [flatMap_append, table, laterTable]
        rfl
      · exact forall_mem_append.mpr ⟨recordsSound, orderedSound⟩
      · simp only [map_append, sum_append_nat, segmentLimit, map_cons, sum_cons,
          Segment.limit] at laterShort ⊢
        omega
    | independent record =>
      obtain ⟨encoded, ordered, mapped, perm, laterTable, orderedSound, laterShort⟩ :=
        ih laterSound encodable
      refine ⟨encoded, .preparedIndependent record :: ordered, mapped, ?_, ?_, ?_, ?_⟩
      · simp only [collected, filterMap_cons, Segment.independent?, Segment.dependent?,
          map_cons, append_assoc, cons_append] at perm ⊢
        exact perm_middle.trans (perm.cons _)
      · rw [flatMap_cons, laterTable]
        rfl
      · exact forall_mem_cons.mpr ⟨first, orderedSound⟩
      · simp only [map_cons, sum_cons, segmentLimit, Segment.limit] at laterShort ⊢
        omega
    | dependent record =>
      obtain ⟨encoded, ordered, mapped, perm, laterTable, orderedSound, laterShort⟩ :=
        ih laterSound encodable
      refine ⟨encoded, .dependent record :: ordered, mapped, ?_, ?_, ?_, ?_⟩
      · exact perm_middle.trans (perm.cons _)
      · rw [flatMap_cons, laterTable]
        rfl
      · exact forall_mem_cons.mpr ⟨first, orderedSound⟩
      · simp only [map_cons, sum_cons, segmentLimit, Segment.limit] at laterShort ⊢
        omega

theorem flatMap_chunkIds (plans : List AdaptiveRecordPlan) :
    plans.flatMap chunkIds =
      (plans.flatMap chunkTable).map Prod.fst := by
  rw [map_flatMap]
  rfl

theorem segmentTable_ids {limit : ℕ} (encodes : Encodes (segmentTable segments) limit ordered) :
    ordered.flatMap chunkIds = (segmentTable segments).map Prod.fst := by
  rw [← encodes.table, flatMap_chunkIds]

theorem orderAdaptiveRecords_of_perm {plans : List AdaptiveRecordPlan}
    (sound : ∀ record ∈ ordered, SoundRecord record record.size)
    (nodup : (ordered.flatMap chunkIds).Nodup) (perm : plans.Perm ordered) :
    orderAdaptiveRecords plans (ordered.flatMap chunkIds) = .ok ordered := by
  have occupied : ∀ record ∈ ordered, record.chunkIds ≠ [] := by
    intro record mem
    simpa [chunkIds] using (sound record mem).occupied
  have sorted := Blocks.sortBlocks_of_perm occupied nodup perm
  unfold orderAdaptiveRecords
  simp only [require, nodup, not_true, if_false, ok_bind, sorted, ne_eq]
  rfl

theorem chunkCount_eq (plans : List AdaptiveRecordPlan) :
    chunkCount plans = (plans.flatMap chunkTable).length := by
  rw [length_flatMap]
  rfl

theorem encodeContainer_eq (reserved : generation ≠ 0) (occupied : plans ≠ [])
    (sound : ∀ record ∈ plans, SoundRecord record record.size) :
    ∃ summary locations, encodeContainerFromAdaptivePlans generation plans =
        (if sealedLength (recordBytes plans) (chunkCount plans) ≤ MAX_CONTAINER_BYTES then
          .ok { generation, layout := layoutOf plans.length (chunkCount plans) (recordBytes plans),
                summary, records := plans, locations } else .error .invalidContainerLayout) ∧
      (sealedLength (recordBytes plans) (chunkCount plans) ≤ MAX_CONTAINER_BYTES →
        ∀ location ∈ locations, location.Valid) := by
  obtain ⟨summary, laidOut⟩ := adaptiveContainerLayout_eq occupied sound
  unfold encodeContainerFromAdaptivePlans
  rw [laidOut]
  by_cases fits : sealedLength (recordBytes plans) (chunkCount plans) ≤ MAX_CONTAINER_BYTES
  · have inside : HEADER_BYTES + recordBytes plans ≤ MAX_CONTAINER_BYTES := by
      have reaches : HEADER_BYTES + recordBytes plans +
          (INDEX_HEADER_BYTES + chunkCount plans * INDEX_ENTRY_BYTES) ≤ _ :=
        @le_alignUp _ FOOTER_BYTES (by decide)
      unfold sealedLength at fits
      omega
    obtain ⟨locations, located, valid⟩ :=
      recordLocations_of_sound sound reserved le_rfl (by decide) inside
    refine ⟨summary, locations, ?_, fun _ => valid⟩
    simp only [fits, if_true, ok_bind, require, reserved, if_false, located]
    rfl
  · refine ⟨summary, [], ?_, fun inside => absurd inside fits⟩
    simp [fits]

/-- The Container holds the given Chunks in this order, and its layout is that of its records. -/
structure Sealed (order : List ChunkId) (encoding : AdaptiveContainerEncoding) : Prop where
  order : encoding.records.flatMap AdaptiveRecordPlan.chunkIds = order
  records : ∀ record ∈ encoding.records, SoundRecord record record.size
  layout : encoding.layout = layoutOf encoding.records.length (chunkCount encoding.records)
    (recordBytes encoding.records)
  length : encoding.layout.fileLength ≤ MAX_CONTAINER_BYTES
  locations : ∀ location ∈ encoding.locations, location.Valid

theorem SoundRecord.table_le (sound : SoundRecord record length) :
    record.chunkTable.length * CHUNK_TABLE_ENTRY_BYTES ≤ length := by
  have single (one : record.chunkTable.length = 1) :
      record.chunkTable.length * CHUNK_TABLE_ENTRY_BYTES ≤ length := by
    have minimum := sound.minimum
    unfold CHUNK_TABLE_ENTRY_BYTES
    unfold MIN_RAW_RECORD_BYTES at minimum
    omega
  cases record with
  | raw chunk => exact single rfl
  | preparedIndependent record => exact single rfl
  | dependent record => exact single rfl
  | zstd chunks decodedLength payload =>
    obtain ⟨rfl, _⟩ := recordLengthOf_ok.mp sound.recordLength
    have reaches : RECORD_HEADER_BYTES + chunks.length * CHUNK_TABLE_ENTRY_BYTES +
        payload.length ≤ _ := le_alignUp (by decide : 0 < RECORD_ALIGNMENT)
    have table : (zstd chunks decodedLength payload).chunkTable.length =
        chunks.length := length_map _
    rw [table]
    omega

theorem chunkCount_le_recordBytes {records : List AdaptiveRecordPlan}
    (sound : ∀ record ∈ records, SoundRecord record record.size) :
    chunkCount records * CHUNK_TABLE_ENTRY_BYTES ≤ recordBytes records := by
  rw [chunkCount, ← sum_map_mul_right]
  exact sum_le_sum fun record mem => (sound record mem).table_le

theorem Sealed.chunks_le {order : List ChunkId} (isSealed : Sealed order encoding) :
    order.length * (CHUNK_TABLE_ENTRY_BYTES + INDEX_ENTRY_BYTES) ≤ MAX_CONTAINER_BYTES := by
  have count : chunkCount encoding.records = order.length := by
    rw [← isSealed.order, chunkCount, length_flatMap]
    simp [chunkIds]
  have records := chunkCount_le_recordBytes isSealed.records
  have length := isSealed.length
  rw [isSealed.layout, layoutOf] at length
  have reaches : HEADER_BYTES + recordBytes encoding.records +
      (INDEX_HEADER_BYTES + chunkCount encoding.records * INDEX_ENTRY_BYTES) ≤ _ :=
    le_alignUp (by decide : 0 < FOOTER_BYTES)
  rw [count] at records reaches length
  rw [mul_add]
  simp only at length
  omega

section Batch

/-- The encoder on segments instead of three lists. -/
def encodeSegments (codec : Codec) (gate : IncompressibilityGatePolicy) (generation : ℕ)
    (segments : List Segment) : Except FormatError AdaptiveContainerEncoding :=
  encodeMixedPrehashedReduction codec gate generation (segments.filterMap Segment.region?)
    (segments.filterMap Segment.independent?) (segments.filterMap Segment.dependent?)
    ((segmentTable segments).map Prod.fst)

theorem Segment.Sound.table_ne_nil {segment : Segment} (sound : segment.Sound) :
    segment.table ≠ [] := by
  cases segment with
  | region chunks =>
    have isRegion : Region chunks := sound
    simpa [Segment.table, regionTable] using isRegion.occupied
  | independent record | dependent record => exact SoundRecord.occupied sound

theorem segmentTable_ne_nil (occupied : segments ≠ [])
    (sound : ∀ segment ∈ segments, segment.Sound) : segmentTable segments ≠ [] := by
  rcases exists_cons_of_ne_nil occupied with ⟨segment, rest, rfl⟩
  intro empty
  rw [segmentTable, flatMap_cons, append_eq_nil_iff] at empty
  exact (sound segment mem_cons_self).table_ne_nil empty.1

theorem encodes_something (occupied : segments ≠ []) :
    ¬ (segments.filterMap Segment.region? = [] ∧ segments.filterMap Segment.independent? = [] ∧
      segments.filterMap Segment.dependent? = []) := by
  obtain ⟨segment, rest, rfl⟩ := exists_cons_of_ne_nil occupied
  cases segment with
  | region chunks => simp [Segment.region?]
  | independent record => simp [Segment.independent?]
  | dependent record => simp [Segment.dependent?]

theorem encodeSegments_eq (occupied : segments ≠ []) :
    encodeSegments codec gate generation segments =
      ((segments.filterMap Segment.region?).mapM fun region =>
        encodeAdaptiveRegion codec region gate) >>= fun encoded =>
      orderAdaptiveRecords (collected encoded segments) ((segmentTable segments).map Prod.fst) >>=
      encodeContainerFromAdaptivePlans generation := by
  have something : require (segments.filterMap Segment.region? = [] ∧
      segments.filterMap Segment.independent? = [] ∧ segments.filterMap Segment.dependent? = [])
      FormatError.invalidContainerLayout = .ok () := if_neg (encodes_something occupied)
  unfold encodeSegments encodeMixedPrehashedReduction
  rw [something, ok_bind]
  rfl

theorem isRegion_of_mem (sound : ∀ segment ∈ segments, segment.Sound)
    {region : List PrehashedChunk} (mem : region ∈ segments.filterMap Segment.region?) :
    Region region := by
  obtain ⟨segment, inSegments, same⟩ := mem_filterMap.mp mem
  cases segment <;> cases same
  exact sound _ inSegments

section

variable (reserved : generation ≠ 0) (occupied : segments ≠ []) (within : codec.Within bound)
  (sound : ∀ segment ∈ segments, segment.Sound)
  (nodup : ((segmentTable segments).map Prod.fst).Nodup)

include reserved occupied within sound nodup

theorem encodeSegments_of_encodable
    (encodable : ∀ region ∈ segments.filterMap Segment.region?, ∃ records,
      encodeAdaptiveRegion codec region gate = .ok records) :
    (∃ encoding, encodeSegments codec gate generation segments = .ok encoding ∧
        Sealed ((segmentTable segments).map Prod.fst) encoding) ∨
      (encodeSegments codec gate generation segments = .error .invalidContainerLayout ∧
        ¬ sealedLength (segmentLimit segments) (segmentTable segments).length ≤
          MAX_CONTAINER_BYTES) := by
  obtain ⟨encoded, ordered, mapped, perm, encodes⟩ := exists_ordered within sound encodable
  have ids := segmentTable_ids encodes
  have sorted : orderAdaptiveRecords (collected encoded segments)
      ((segmentTable segments).map Prod.fst) = .ok ordered := by
    rw [← ids] at nodup ⊢
    exact orderAdaptiveRecords_of_perm encodes.sound nodup perm
  have orderedSome : ordered ≠ [] := by
    rintro rfl
    exact segmentTable_ne_nil occupied sound encodes.table.symm
  have computed : encodeSegments codec gate generation segments =
      encodeContainerFromAdaptivePlans generation ordered := by
    rw [encodeSegments_eq occupied, mapped, ok_bind, sorted, ok_bind]
  obtain ⟨summary, locations, ran, valid⟩ := encodeContainer_eq reserved orderedSome encodes.sound
  rw [computed, ran]
  by_cases length : sealedLength (recordBytes ordered) (chunkCount ordered) ≤ MAX_CONTAINER_BYTES
  · rw [if_pos length]
    exact .inl ⟨_, rfl, ids, encodes.sound, rfl, length, valid length⟩
  · rw [if_neg length]
    refine .inr ⟨rfl, fun short => length ?_⟩
    rw [chunkCount_eq, encodes.table]
    exact (sealedLength_mono _ encodes.short).trans short

theorem encodeSegments_of_fits
    (fits : ∀ region ∈ segments.filterMap Segment.region?, RegionFits bound gate region)
    (short : sealedLength (segmentLimit segments) (segmentTable segments).length ≤
      MAX_CONTAINER_BYTES) :
    ∃ encoding, encodeSegments codec gate generation segments = .ok encoding ∧
      Sealed ((segmentTable segments).map Prod.fst) encoding := by
  rcases encodeSegments_of_encodable reserved occupied within sound nodup
    (fun region mem => (isRegion_of_mem sound mem).encode_of_fits within (fits region mem)) with
    encoded | ⟨_, long⟩
  · exact encoded
  · exact absurd short long

theorem encodeSegments_cases :
    (∃ encoding, encodeSegments codec gate generation segments = .ok encoding ∧
        Sealed ((segmentTable segments).map Prod.fst) encoding) ∨
      ∃ error, encodeSegments codec gate generation segments = .error error ∧
        error ≠ .assertion := by
  rcases mapM_cases (fun region => encodeAdaptiveRegion codec region gate)
    (segments.filterMap Segment.region?) with ⟨encoded, mapped⟩ |
      ⟨region, mem, error, failed, mapped⟩
  · rcases encodeSegments_of_encodable reserved occupied within sound nodup
      (fun region mem => exists_of_mapM_eq_ok mapped mem) with sealedBatch | ⟨long, _⟩
    · exact .inl sealedBatch
    · exact .inr ⟨_, long, nofun⟩
  · refine .inr ⟨error, ?_, ?_⟩
    · rw [encodeSegments_eq occupied, mapped, error_bind]
    · rcases (isRegion_of_mem sound mem).encode_cases gate within with
        ⟨_, ran, _⟩ | ⟨_, again, unasserted⟩
      · cases failed.symm.trans ran
      · cases failed.symm.trans again
        exact unasserted

end

/-- A batch that the greedy compressor gets through has only regions that fit. -/
theorem regions_fit_of_greedy (occupied : segments ≠ [])
    (sound : ∀ segment ∈ segments, segment.Sound)
    (ran : encodeSegments (Codec.greedy bound) gate generation segments = .ok encoding) :
    ∀ region ∈ segments.filterMap Segment.region?, RegionFits bound gate region := by
  rw [encodeSegments_eq occupied, bind_ok] at ran
  obtain ⟨encoded, mapped, _⟩ := ran
  intro region mem
  obtain ⟨records, encodes⟩ := exists_of_mapM_eq_ok mapped mem
  exact (isRegion_of_mem sound mem).fits_of_greedy encodes

/-- The records when nothing compresses. -/
def uncompressed (segments : List Segment) : List AdaptiveRecordPlan :=
  collected ((segments.filterMap Segment.region?).map (List.map .raw)) segments

theorem uncompressed_sound (sound : ∀ segment ∈ segments, segment.Sound) :
    ∀ record ∈ uncompressed segments, SoundRecord record record.size := by
  intro record mem
  simp only [uncompressed, collected, mem_append, mem_flatten, mem_map] at mem
  rcases mem with (⟨_, ⟨region, inRegions, rfl⟩, inRegion⟩ | ⟨prepared, inSegments, rfl⟩) |
    ⟨prepared, inSegments, rfl⟩
  · obtain ⟨chunk, inChunks, rfl⟩ := mem_map.mp inRegion
    exact (soundRecord_raw ((isRegion_of_mem sound inRegions).valid chunk inChunks)).of_size
  all_goals
    obtain ⟨segment, inside, same⟩ := mem_filterMap.mp inSegments
    cases segment <;> cases same
    exact sound _ inside

theorem recordBytes_uncompressed (sound : ∀ segment ∈ segments, segment.Sound) :
    recordBytes (uncompressed segments) = segmentLimit segments := by
  induction segments with
  | nil => rfl
  | cons segment rest ih =>
    have later := ih (fun other mem => sound other (mem_cons_of_mem _ mem))
    have first := sound segment mem_cons_self
    simp only [recordBytes, uncompressed, collected, segmentLimit, map_append,
      sum_append_nat] at later
    cases segment with
    | region chunks =>
      have isRegion : Region chunks := first
      have raw := map_size_raw isRegion.valid
      simp only [recordBytes, uncompressed, collected, segmentLimit, filterMap_cons,
        Segment.region?, Segment.independent?, Segment.dependent?, map_cons,
        flatten_cons, map_append, sum_append_nat, sum_cons, Segment.limit]
      omega
    | independent record | dependent record =>
      simp only [recordBytes, uncompressed, collected, segmentLimit, filterMap_cons,
        Segment.region?, Segment.independent?, Segment.dependent?, map_cons,
        map_append, sum_append_nat, sum_cons, Segment.limit]
      omega

theorem mapM_refusing {regions : List (List PrehashedChunk)}
    {encoded : List (List AdaptiveRecordPlan)} (areRegions : ∀ region ∈ regions, Region region)
    (mapped : regions.mapM (fun region => encodeAdaptiveRegion Codec.refusing region gate) =
      .ok encoded) : encoded = regions.map (map .raw) := by
  have pairs := mapM_ok.mp mapped
  clear mapped
  induction pairs with
  | nil => rfl
  | cons first later ih =>
    rw [map_cons, (areRegions _ mem_cons_self).encode_refusing first,
      ih (fun region mem => areRegions region (mem_cons_of_mem _ mem))]

theorem short_of_refusing (reserved : generation ≠ 0) (occupied : segments ≠ [])
    (sound : ∀ segment ∈ segments, segment.Sound)
    (ran : encodeSegments Codec.refusing gate generation segments = .ok encoding) :
    sealedLength (segmentLimit segments) (segmentTable segments).length ≤ MAX_CONTAINER_BYTES := by
  simp only [encodeSegments_eq occupied, bind_ok] at ran
  obtain ⟨encoded, mapped, ordered, sorted, container⟩ := ran
  obtain rfl := mapM_refusing (fun region mem => isRegion_of_mem sound mem) mapped
  simp only [orderAdaptiveRecords, bind_ok, require_ok, pure_ok, not_not] at sorted
  obtain ⟨_, _, _, ids, rfl⟩ := sorted
  let ordered := Blocks.sortBlocks chunkIds
    ((segmentTable segments).map Prod.fst) (uncompressed segments)
  have perm : ordered.Perm (uncompressed segments) := mergeSort_perm _ _
  have orderedSound : ∀ record ∈ ordered, SoundRecord record record.size :=
    fun record mem => uncompressed_sound sound record (perm.mem_iff.mp mem)
  have bytes : recordBytes ordered = segmentLimit segments := by
    rw [← recordBytes_uncompressed sound]
    exact (perm.map _).sum_eq
  have count : chunkCount ordered = (segmentTable segments).length := by
    have lengths := congrArg length ids
    rw [flatMap_chunkIds, length_map, length_map] at lengths
    exact (chunkCount_eq ordered).trans lengths
  have orderedSome : ordered ≠ [] := by
    intro empty
    rw [empty] at count
    exact segmentTable_ne_nil occupied sound (length_eq_zero_iff.mp count.symm)
  obtain ⟨summary, locations, decided, _⟩ := encodeContainer_eq reserved orderedSome orderedSound
  rw [bytes, count] at decided
  by_contra long
  rw [if_neg long] at decided
  have failed : encodeContainerFromAdaptivePlans generation ordered = .ok encoding := container
  rw [decided] at failed
  cases failed

end Batch

end Fastdup.Format.Container
