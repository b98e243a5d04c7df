import Fastdup.Format.Container

/-!
# Encoding a Compression Region

A region of valid Chunks is encoded unless the trial buffer or the Record limit is too small for
it. Whether that can happen depends on the number of Chunks: the payload that is still useful, and
the Chunk table, grow with it. A payload within the useful cap always beats RAW.
-/

namespace Fastdup.Format.Container

open Library Checked Nat Codec List AdaptiveRecordPlan PrehashedChunk

section Alignment

variable {value target alignment : ℕ}

theorem le_alignUp (positive : 0 < alignment) : value ≤ alignUp value alignment := by
  unfold alignUp
  have division := div_add_mod (value + (alignment - 1)) alignment
  have remainder := mod_lt (value + (alignment - 1)) positive
  rw [mul_comm] at division
  omega

theorem dvd_alignUp : alignment ∣ alignUp value alignment :=
  dvd_mul_left _ _

theorem alignUp_le (positive : 0 < alignment) (below : value ≤ target)
    (aligned : alignment ∣ target) : alignUp value alignment ≤ target := by
  obtain ⟨count, rfl⟩ := aligned
  have quotient : (value + (alignment - 1)) / alignment < count + 1 := by
    rw [div_lt_iff_lt_mul positive, add_mul, one_mul, mul_comm]
    omega
  unfold alignUp
  rw [mul_comm]
  exact mul_le_mul_left _ (le_of_lt_succ quotient)

theorem alignUp_mono (positive : 0 < alignment) (below : value ≤ target) :
    alignUp value alignment ≤ alignUp target alignment :=
  alignUp_le positive (below.trans (le_alignUp positive)) dvd_alignUp

end Alignment

variable {length : ℕ} {record : AdaptiveRecordPlan}

theorem recordLengthOf_ok {payloadEnd : ℕ} : recordLengthOf payloadEnd = .ok length ↔
      length = alignUp payloadEnd RECORD_ALIGNMENT ∧ length ≤ MAX_RECORD_BYTES := by
  simp only [recordLengthOf, bind_ok, require_ok, pure_ok]
  constructor
  · rintro ⟨_, small, rfl⟩
    exact ⟨rfl, by omega⟩
  · rintro ⟨rfl, small⟩
    exact ⟨(), by omega, rfl⟩

variable {chunk : PrehashedChunk}

theorem validateLogicalChunkLength_of_valid (valid : chunk.Valid) :
    validateLogicalChunkLength chunk.length = .ok () := by
  obtain ⟨occupied, small⟩ := valid
  exact require_ok.mpr (by omega)

/-- The length of the raw record of a Chunk. -/
def PrehashedChunk.rawLength (chunk : PrehashedChunk) : ℕ :=
  alignUp (RAW_PAYLOAD_OFFSET + chunk.length) RECORD_ALIGNMENT

theorem PrehashedChunk.Valid.rawLength_le (valid : chunk.Valid) :
    chunk.rawLength ≤ MAX_RECORD_BYTES := by
  refine alignUp_le (by decide) ?_ (by decide)
  have small := valid.2
  unfold MAX_LOGICAL_CHUNK_BYTES at small
  unfold RAW_PAYLOAD_OFFSET RECORD_HEADER_BYTES CHUNK_TABLE_ENTRY_BYTES MAX_RECORD_BYTES
  omega

theorem rawRecordLength_of_valid (valid : chunk.Valid) :
    rawRecordLength chunk.length = .ok chunk.rawLength := by
  unfold rawRecordLength
  rw [validateLogicalChunkLength_of_valid valid, ok_bind, recordLengthOf_ok]
  exact ⟨rfl, valid.rawLength_le⟩

/-- A Compression Region that the writer may build. -/
structure Region (chunks : List PrehashedChunk) : Prop where
  occupied : chunks ≠ []
  valid : ∀ chunk ∈ chunks, chunk.Valid
  small : (chunks.map PrehashedChunk.length).sum ≤ MAX_DECODED_RECORD_BYTES

def decodedBytes (region : List PrehashedChunk) : ℕ :=
  (region.map PrehashedChunk.length).sum

def rawBytes (region : List PrehashedChunk) : ℕ :=
  (region.map PrehashedChunk.rawLength).sum

/-- The largest payload with which a Zstd Record of the region is still useful. -/
def payloadCap (region : List PrehashedChunk) : ℕ :=
  usefulZstdPayloadCap (rawBytes region) region.length

/-- Where the payload of the Zstd Record of the region starts. -/
def payloadOffset (region : List PrehashedChunk) : ℕ :=
  RECORD_HEADER_BYTES + region.length * CHUNK_TABLE_ENTRY_BYTES

variable {region : List PrehashedChunk}

theorem length_joined (region : List PrehashedChunk) :
    (region.flatMap bytes).length = decodedBytes region := by
  rw [length_flatMap]
  rfl

theorem Region.decodedLength (isRegion : Region region) :
    prehashedDecodedLength region = .ok (decodedBytes region) := by
  refine bind_ok.mpr ⟨decodedBytes region, foldlM_adds ?_, ?_⟩
  · intro total chunk mem
    rw [validateLogicalChunkLength_of_valid (isRegion.valid chunk mem)]
    rfl
  · exact bind_ok.mpr ⟨(), if_neg (not_lt.mpr isRegion.small), rfl⟩

theorem Region.rawLength (isRegion : Region region) : region.foldlM (fun total chunk => do
      let length ← rawRecordLength chunk.length
      pure (total + length)) 0 = (.ok (rawBytes region) : Except FormatError ℕ) := by
  refine foldlM_adds ?_
  intro total chunk mem
  rw [rawRecordLength_of_valid (isRegion.valid chunk mem)]
  rfl

theorem saving_of_cap (occupied : 0 < length) (within : length ≤ payloadCap region) :
    alignUp (payloadOffset region + length) RECORD_ALIGNMENT + requiredSaving (rawBytes region) ≤
      rawBytes region := by
  let completeCap := rawBytes region - requiredSaving (rawBytes region)
  have bounded : length ≤ completeCap - completeCap % RECORD_ALIGNMENT - payloadOffset region :=
    within
  have aligned : RECORD_ALIGNMENT ∣ completeCap - completeCap % RECORD_ALIGNMENT :=
    dvd_sub_mod completeCap
  have recordLength := alignUp_le (by decide : 0 < RECORD_ALIGNMENT)
    (by omega : payloadOffset region + length ≤ completeCap - completeCap % RECORD_ALIGNMENT)
    aligned
  omega

theorem zstdRecordWins_of_saving {rawLength zstdLength : ℕ}
    (saving : zstdLength + requiredSaving rawLength ≤ rawLength) :
    zstdRecordWins rawLength zstdLength = true := by
  unfold requiredSaving at saving
  refine decide_eq_true ⟨?_, ?_, ?_⟩ <;> omega

/-- What is known of the compressors: a payload is not empty and no longer than a bound on the
input length. The buffer for a fragmented input holds exactly what was reserved. -/
structure Codec.Within (codec : Codec) (bound : ℕ → ℕ) : Prop where
  owned : ∀ level decoded cap payload, codec.zstd level decoded cap = some payload →
    payload ≠ [] ∧ payload.length ≤ bound decoded.length
  fragmented : ∀ level fragments cap payload,
    codec.zstdFragmented level fragments cap = some payload →
      payload ≠ [] ∧ payload.length ≤ cap ∧ payload.length ≤ bound fragments.flatten.length

/-- The payload of the target compressor, where it is tried and useful. -/
def regionTrial (codec : Codec) (gate : IncompressibilityGatePolicy)
    (region : List PrehashedChunk) : Except FormatError (Option Bytes) := do
  let tryTarget ← shouldTryTarget codec gate (decodedInput gate region) (decodedBytes region)
    (payloadCap region)
  pure (if tryTarget then targetPayload codec region (decodedInput gate region) (payloadCap region)
    else none)

variable {codec : Codec} {bound : ℕ → ℕ} {gate : IncompressibilityGatePolicy}

theorem Region.encode_eq (isRegion : Region region) : encodeAdaptiveRegion codec region gate =
      (regionTrial codec gate region >>=
        regionRecords region (decodedBytes region) (rawBytes region)) := by
  unfold encodeAdaptiveRegion encodeAdaptiveRegionFromInput regionTrial
  rw [require, if_neg isRegion.occupied, ok_bind, isRegion.decodedLength, ok_bind,
    isRegion.rawLength, ok_bind, bind_assoc]
  rfl

variable {payload : Bytes}

theorem targetPayload_within (within : codec.Within bound)
    (useful : targetPayload codec region (decodedInput gate region) (payloadCap region) =
      some payload) : 0 < payload.length ∧ payload.length ≤ payloadCap region ∧
      payload.length ≤ bound (decodedBytes region) := by
  by_cases off : gate = .off
  · simp only [decodedInput, if_pos off, targetPayload, zstdFragmentedOwnedPayload] at useful
    split at useful
    · cases useful
    · obtain ⟨occupied, capped, bounded⟩ := within.fragmented _ _ _ _ useful
      rw [← flatMap_def, length_joined] at bounded
      exact ⟨length_pos_iff.mpr occupied, capped, bounded⟩
  · simp only [decodedInput, if_neg off, targetPayload, zstdOwnedPayload] at useful
    split at useful
    · cases useful
    · obtain ⟨ran, capped⟩ := Option.filter_eq_some_iff.mp useful
      obtain ⟨occupied, bounded⟩ := within.owned _ _ _ _ ran
      rw [length_joined] at bounded
      exact ⟨length_pos_iff.mpr occupied, of_decide_eq_true capped, bounded⟩

theorem regionTrial_within (within : codec.Within bound)
    (tried : regionTrial codec gate region = .ok (some payload)) :
    0 < payload.length ∧ payload.length ≤ payloadCap region ∧
      payload.length ≤ bound (decodedBytes region) := by
  simp only [regionTrial, bind_ok, pure_ok] at tried
  obtain ⟨tryTarget, _, useful⟩ := tried
  split at useful
  · exact targetPayload_within within useful
  · cases useful

/-- The trials of a gate run when the region is large, and need the cap to fit their buffer. -/
def Gated (gate : IncompressibilityGatePolicy) (region : List PrehashedChunk) : Prop :=
  gate ≠ .off ∧ INCOMPRESSIBILITY_GATE_MIN_BYTES_V1 ≤ decodedBytes region

/-- No payload of the compressors exceeds the trial buffer or the Record limit. -/
structure RegionFits (bound : ℕ → ℕ) (gate : IncompressibilityGatePolicy)
    (region : List PrehashedChunk) : Prop where
  scratch : Gated gate region → payloadCap region ≤ MAX_DECODED_RECORD_BYTES
  record : 0 < min (payloadCap region) (bound (decodedBytes region)) →
    alignUp (payloadOffset region + min (payloadCap region) (bound (decodedBytes region)))
      RECORD_ALIGNMENT ≤ MAX_RECORD_BYTES

theorem scratchTrial_of_le {cap : ℕ} (fitting : cap ≤ MAX_DECODED_RECORD_BYTES) (fits : Bool) :
    ∃ allowed, scratchTrial cap fits = .ok allowed ∧ (0 < cap → allowed = fits) := by
  unfold scratchTrial
  split
  · exact ⟨false, rfl, by omega⟩
  · rw [if_neg (not_lt.mpr fitting)]
    exact ⟨fits, rfl, fun _ => rfl⟩

theorem shouldTryTarget_of_not_gated (ungated : ¬ Gated gate region) (cap : ℕ) :
    shouldTryTarget codec gate (decodedInput gate region) (decodedBytes region) cap = .ok true := by
  unfold shouldTryTarget
  split
  · rfl
  · rename_i on
    have small : decodedBytes region < INCOMPRESSIBILITY_GATE_MIN_BYTES_V1 := by
      by_contra large
      exact ungated ⟨on, Nat.le_of_not_lt large⟩
    rw [if_pos small]

theorem shouldTryTarget_of_gated (gated : Gated gate region) (cap : ℕ) :
    shouldTryTarget codec gate (decodedInput gate region) (decodedBytes region) cap =
      (do let allowed ← lz4Fits codec (region.flatMap bytes) cap
          if allowed then .ok true else if gate = .lz4Only then .ok false
          else zstdFits codec (region.flatMap bytes) ZSTD_RESCUE_LEVEL_V1 cap) := by
  simp [shouldTryTarget, decodedInput, gated.1, not_lt.mpr gated.2]

theorem shouldTryTarget_of_wide (gated : Gated gate region) {cap : ℕ}
    (wide : MAX_DECODED_RECORD_BYTES < cap) :
    shouldTryTarget codec gate (decodedInput gate region) (decodedBytes region) cap =
      .error .arithmeticOverflow := by
  have nonzero : cap ≠ 0 := by omega
  rw [shouldTryTarget_of_gated gated, lz4Fits, scratchTrial, if_neg nonzero, if_pos wide,
    error_bind]

theorem shouldTryTarget_of_le (gated : Gated gate region) {cap : ℕ}
    (fitting : cap ≤ MAX_DECODED_RECORD_BYTES) :
    ∃ tryTarget, shouldTryTarget codec gate (decodedInput gate region) (decodedBytes region) cap =
        .ok tryTarget ∧ (0 < cap → codec.lz4Fits (region.flatMap bytes) cap = true →
        tryTarget = true) := by
  rw [shouldTryTarget_of_gated gated]
  obtain ⟨allowed, lz4, same⟩ := scratchTrial_of_le fitting
    (codec.lz4Fits (region.flatMap bytes) cap)
  obtain ⟨rescued, zstd, _⟩ := scratchTrial_of_le fitting
    (codec.zstd ZSTD_RESCUE_LEVEL_V1 (region.flatMap bytes) cap).isSome
  rw [lz4Fits, lz4, ok_bind]
  split
  · exact ⟨true, rfl, fun _ _ => rfl⟩
  · rename_i refused
    have absent : 0 < cap → codec.lz4Fits (region.flatMap bytes) cap = true →
        False := fun room fits => refused ((same room).trans fits)
    split
    · exact ⟨false, rfl, fun room fits => (absent room fits).elim⟩
    · exact ⟨rescued, zstd, fun room fits => (absent room fits).elim⟩

theorem regionTrial_of_fits
    (scratch : Gated gate region → payloadCap region ≤ MAX_DECODED_RECORD_BYTES) :
    ∃ payload, regionTrial codec gate region = .ok payload := by
  by_cases gated : Gated gate region
  · obtain ⟨tryTarget, decided, _⟩ :=
      @shouldTryTarget_of_le region codec gate gated _ (scratch gated)
    exact ⟨_, bind_ok.mpr ⟨tryTarget, decided, rfl⟩⟩
  · exact ⟨_, bind_ok.mpr ⟨true, shouldTryTarget_of_not_gated gated _, rfl⟩⟩

theorem regionTrial_error {error : FormatError}
    (failed : regionTrial codec gate region = .error error) : error = .arithmeticOverflow := by
  by_cases wide : Gated gate region ∧ MAX_DECODED_RECORD_BYTES < payloadCap region
  · rw [regionTrial, shouldTryTarget_of_wide wide.1 wide.2, error_bind] at failed
    cases failed
    rfl
  · obtain ⟨payload, ran⟩ := @regionTrial_of_fits region codec gate
      (fun gated => Nat.le_of_not_lt fun large => wide ⟨gated, large⟩)
    rw [ran] at failed
    cases failed

/-- What one Record is worth to the layout of its Container. -/
structure SoundRecord (record : AdaptiveRecordPlan) (length : ℕ) : Prop where
  recordLength : record.recordLength = .ok length
  minimum : MIN_RAW_RECORD_BYTES ≤ length
  maximum : length ≤ MAX_RECORD_BYTES
  aligned : RECORD_ALIGNMENT ∣ length
  occupied : record.chunkTable ≠ []
  entries : ∀ entry ∈ record.chunkTable, 0 < entry.2 ∧ entry.2 ≤ MAX_LOGICAL_CHUNK_BYTES
  covers : (record.chunkTable.map Prod.snd).sum = record.decodedLength
  decoded : record.decodedLength ≤ MAX_DECODED_RECORD_BYTES
  payload : 0 < record.payloadLength ∧ record.payloadLength < length
  codec : match record.codecId with
    | .raw => record.dependencyId = none ∧ record.chunkTable.length = 1 ∧
        record.payloadLength = record.decodedLength ∧
        length = alignUp (RAW_PAYLOAD_OFFSET + record.decodedLength) RECORD_ALIGNMENT
    | .zstd => record.dependencyId = none
    | .zstdPrefix | .zstdPrefixFlex | .sparseXor =>
      record.chunkTable.length = 1 ∧
        ∃ base, record.dependencyId = some base ∧ base ≠ Bytes.Fixed.zero 32

def AdaptiveRecordPlan.size (record : AdaptiveRecordPlan) : ℕ :=
  match record.recordLength with
  | .ok length => length
  | .error _ => 0

theorem SoundRecord.size_eq (sound : SoundRecord record length) : record.size = length := by
  rw [AdaptiveRecordPlan.size, sound.recordLength]

theorem SoundRecord.of_size (sound : SoundRecord record length) : SoundRecord record record.size :=
  sound.size_eq.symm ▸ sound

/-- A Record with a payload that starts after the smallest header and table. -/
theorem minimum_of_payload {start payload : ℕ} (header : RAW_PAYLOAD_OFFSET ≤ start)
    (occupied : 0 < payload) : MIN_RAW_RECORD_BYTES ≤ alignUp (start + payload) RECORD_ALIGNMENT ∧
      payload < alignUp (start + payload) RECORD_ALIGNMENT := by
  have reaches : start + payload ≤ alignUp (start + payload) RECORD_ALIGNMENT :=
    le_alignUp (by decide)
  have aligned : RECORD_ALIGNMENT ∣ alignUp (start + payload) RECORD_ALIGNMENT := dvd_alignUp
  unfold RAW_PAYLOAD_OFFSET RECORD_HEADER_BYTES CHUNK_TABLE_ENTRY_BYTES at header
  unfold MIN_RAW_RECORD_BYTES
  unfold RECORD_ALIGNMENT at reaches aligned ⊢
  omega

theorem soundRecord_raw (valid : chunk.Valid) : SoundRecord (.raw chunk) chunk.rawLength := by
  obtain ⟨minimum, payload⟩ := minimum_of_payload (le_refl RAW_PAYLOAD_OFFSET) valid.1
  exact
    { recordLength := rawRecordLength_of_valid valid
      minimum := minimum
      maximum := valid.rawLength_le
      aligned := dvd_alignUp
      occupied := cons_ne_nil _ _
      entries := by
        intro entry mem
        rw [mem_singleton.mp mem]
        exact valid
      covers := by simp [chunkTable, decodedLength]
      decoded := valid.2.trans (by decide)
      payload := ⟨valid.1, payload⟩
      codec := ⟨rfl, rfl, rfl, rfl⟩ }

section

variable (isRegion : Region region)

include isRegion

theorem payloadOffset_ge : RAW_PAYLOAD_OFFSET ≤ payloadOffset region := by
  have occupied := length_pos_iff.mpr isRegion.occupied
  unfold RAW_PAYLOAD_OFFSET payloadOffset CHUNK_TABLE_ENTRY_BYTES
  omega

theorem soundRecord_zstd (occupied : 0 < payload.length)
    (fits : alignUp (payloadOffset region + payload.length) RECORD_ALIGNMENT ≤ MAX_RECORD_BYTES) :
    SoundRecord (.zstd region (decodedBytes region) payload)
      (alignUp (payloadOffset region + payload.length) RECORD_ALIGNMENT) := by
  obtain ⟨minimum, inside⟩ := minimum_of_payload (payloadOffset_ge isRegion) occupied
  exact
    { recordLength := recordLengthOf_ok.mpr ⟨rfl, fits⟩
      minimum := minimum
      maximum := fits
      aligned := dvd_alignUp
      occupied := by simpa [chunkTable] using isRegion.occupied
      entries := by
        intro entry mem
        obtain ⟨chunk, inRegion, rfl⟩ := mem_map.mp mem
        exact isRegion.valid chunk inRegion
      covers := by
        simp [chunkTable, decodedLength, decodedBytes,
          Function.comp_def]
      decoded := isRegion.small
      payload := ⟨occupied, inside⟩
      codec := rfl }

def regionTable (region : List PrehashedChunk) : List (ChunkId × ℕ) :=
  region.map fun chunk => (chunk.chunkId, chunk.length)

/-- Records that hold the Chunks in order and are no longer than a limit. -/
structure Encodes (table : List (ChunkId × ℕ)) (limit : ℕ) (records : List AdaptiveRecordPlan) :
    Prop where
  table : records.flatMap AdaptiveRecordPlan.chunkTable = table
  sound : ∀ record ∈ records, SoundRecord record record.size
  short : (records.map AdaptiveRecordPlan.size).sum ≤ limit

omit isRegion in
theorem map_size_raw (valid : ∀ chunk ∈ region, chunk.Valid) :
    ((region.map raw).map AdaptiveRecordPlan.size).sum = rawBytes region := by
  rw [map_map, rawBytes]
  congr 1
  refine map_congr_left ?_
  intro chunk mem
  exact (soundRecord_raw (valid chunk mem)).size_eq

theorem encodes_raw : Encodes (regionTable region) (rawBytes region) (region.map .raw) where
  table := by
    simp only [flatMap_map, chunkTable, regionTable]
    exact flatMap_pure_eq_map ..
  sound := by
    intro record mem
    obtain ⟨chunk, inRegion, rfl⟩ := mem_map.mp mem
    exact (soundRecord_raw (isRegion.valid chunk inRegion)).of_size
  short := (map_size_raw isRegion.valid).le

theorem regionRecords_some (occupied : 0 < payload.length)
    (capped : payload.length ≤ payloadCap region)
    (fits : alignUp (payloadOffset region + payload.length) RECORD_ALIGNMENT ≤ MAX_RECORD_BYTES) :
    regionRecords region (decodedBytes region) (rawBytes region) (some payload) =
        .ok [.zstd region (decodedBytes region) payload] ∧
      Encodes (regionTable region) (rawBytes region)
        [.zstd region (decodedBytes region) payload] := by
  have saving := saving_of_cap occupied capped
  have wins := zstdRecordWins_of_saving saving
  have length : zstdRecordLength region.length payload.length =
      .ok (alignUp (payloadOffset region + payload.length) RECORD_ALIGNMENT) :=
    recordLengthOf_ok.mpr ⟨rfl, fits⟩
  constructor
  · simp only [regionRecords, length, ok_bind, wins, require, Bool.true_eq_false, if_false]
    rfl
  · have sound := soundRecord_zstd isRegion occupied fits
    refine ⟨flatMap_singleton _ _, ?_, ?_⟩
    · intro record mem
      rw [mem_singleton.mp mem]
      exact sound.of_size
    · simp only [map_cons, map_nil, sum_cons, sum_nil, sound.size_eq]
      omega

theorem Region.encode_of_fits (within : codec.Within bound) (fits : RegionFits bound gate region) :
    ∃ records, encodeAdaptiveRegion codec region gate = .ok records := by
  obtain ⟨trial, tried⟩ := @regionTrial_of_fits region codec gate fits.scratch
  rw [isRegion.encode_eq, tried, ok_bind]
  cases trial with
  | none => exact ⟨_, rfl⟩
  | some payload =>
    obtain ⟨occupied, capped, bounded⟩ := regionTrial_within within tried
    have least : payload.length ≤ min (payloadCap region) (bound (decodedBytes region)) :=
      Nat.le_min.mpr ⟨capped, bounded⟩
    have length := fits.record (occupied.trans_le least)
    have below := alignUp_mono (by decide : 0 < RECORD_ALIGNMENT)
      (Nat.add_le_add_left least (payloadOffset region))
    exact ⟨_, (regionRecords_some isRegion occupied capped (below.trans length)).1⟩

omit isRegion in
theorem regionRecords_too_long
    (long : ¬ alignUp (payloadOffset region + payload.length) RECORD_ALIGNMENT ≤ MAX_RECORD_BYTES) :
    regionRecords region (decodedBytes region) (rawBytes region) (some payload) =
      .error (.invalidRecordLength
        (alignUp (payloadOffset region + payload.length) RECORD_ALIGNMENT)) := by
  have tooLong : zstdRecordLength region.length payload.length = .error (.invalidRecordLength
        (alignUp (payloadOffset region + payload.length) RECORD_ALIGNMENT)) := by
    exact congrArg (· >>= _) (if_pos (Nat.lt_of_not_le long))
  simp [regionRecords, tooLong]

theorem Region.encode_cases (gate : IncompressibilityGatePolicy) (within : codec.Within bound) :
    (∃ records, encodeAdaptiveRegion codec region gate = .ok records ∧
        Encodes (regionTable region) (rawBytes region) records) ∨
      ∃ error, encodeAdaptiveRegion codec region gate = .error error ∧ error ≠ .assertion := by
  rw [isRegion.encode_eq]
  cases tried : regionTrial codec gate region with
  | error error =>
    rw [regionTrial_error tried]
    exact .inr ⟨_, rfl, nofun⟩
  | ok trial =>
    rw [ok_bind]
    cases trial with
    | none => exact .inl ⟨_, rfl, encodes_raw isRegion⟩
    | some payload =>
      obtain ⟨occupied, capped, _⟩ := regionTrial_within within tried
      by_cases fits : alignUp (payloadOffset region + payload.length) RECORD_ALIGNMENT ≤
          MAX_RECORD_BYTES
      · exact .inl ⟨_, regionRecords_some isRegion occupied capped fits⟩
      · exact .inr ⟨_, regionRecords_too_long fits, nofun⟩

variable {records : List AdaptiveRecordPlan}

/-- A compressor that always takes as much room as it may. -/
def Codec.greedy (bound : ℕ → ℕ) : Codec where
  lz4Fits _ _ := true
  zstd _ decoded cap :=
    if min cap (bound decoded.length) = 0 then none
    else some (List.replicate (min cap (bound decoded.length)) 0)
  zstdFragmented _ fragments cap :=
    if min cap (bound fragments.flatten.length) = 0 then none
    else some (List.replicate (min cap (bound fragments.flatten.length)) 0)

/-- A codec that compresses nothing. -/
def Codec.refusing : Codec where
  lz4Fits _ _ := false
  zstd _ _ _ := none
  zstdFragmented _ _ _ := none

omit isRegion in
theorem Codec.refusing_within (bound : ℕ → ℕ) : refusing.Within bound where
  owned _ _ _ _ ran := nomatch ran
  fragmented _ _ _ _ ran := nomatch ran

omit isRegion in
theorem greedy_payload {cap limit : ℕ}
    (ran : (if min cap limit = 0 then none else some (List.replicate (min cap limit) 0)) =
      some payload) : payload ≠ [] ∧ payload.length ≤ cap ∧ payload.length ≤ limit := by
  split at ran
  · cases ran
  · cases ran
    rw [← length_pos_iff, length_replicate]
    omega

omit isRegion in
theorem Codec.greedy_within (bound : ℕ → ℕ) : (greedy bound).Within bound where
  owned _ _ _ _ ran := (greedy_payload ran).imp_right And.right
  fragmented _ _ _ _ ran := greedy_payload ran

omit isRegion in
theorem targetPayload_greedy (room : 0 < min (payloadCap region) (bound (decodedBytes region))) :
    targetPayload (greedy bound) region (decodedInput gate region) (payloadCap region) =
      some (List.replicate (min (payloadCap region) (bound (decodedBytes region))) 0) := by
  have cap : payloadCap region ≠ 0 := by omega
  by_cases off : gate = .off
  · have joined : (region.map bytes).flatten.length = decodedBytes region := by
      rw [← flatMap_def, length_joined]
    simp only [targetPayload, decodedInput, off, if_true, zstdFragmentedOwnedPayload, cap, if_false,
      greedy, joined, room.ne']
  · simp only [targetPayload, decodedInput, off, if_false, zstdOwnedPayload, cap, greedy,
      length_joined, room.ne']
    rw [Option.filter_some, if_pos]
    simp only [length_replicate, decide_eq_true_eq]
    exact min_le_left _ _

theorem Region.fits_of_greedy
    (ran : encodeAdaptiveRegion (greedy bound) region gate = .ok records) :
    RegionFits bound gate region := by
  rw [isRegion.encode_eq] at ran
  simp only [regionTrial, bind_ok, pure_ok] at ran
  obtain ⟨_, ⟨tryTarget, decided, rfl⟩, recorded⟩ := ran
  have scratch : Gated gate region → payloadCap region ≤ MAX_DECODED_RECORD_BYTES := by
    intro gated
    by_contra wide
    rw [shouldTryTarget_of_wide gated (Nat.lt_of_not_le wide)] at decided
    cases decided
  refine ⟨scratch, ?_⟩
  intro room
  have tries : tryTarget = true := by
    by_cases gated : Gated gate region
    · obtain ⟨decision, ran, allowed⟩ :=
        @shouldTryTarget_of_le region (greedy bound) gate gated _ (scratch gated)
      rw [ran] at decided
      cases decided
      exact allowed (by omega) rfl
    · rw [shouldTryTarget_of_not_gated gated] at decided
      cases decided
      rfl
  rw [tries, if_pos rfl, targetPayload_greedy room] at recorded
  simp only [regionRecords, bind_ok] at recorded
  obtain ⟨length, measured, _⟩ := recorded
  rw [length_replicate] at measured
  obtain ⟨rfl, small⟩ := recordLengthOf_ok.mp measured
  exact small

theorem Region.encode_refusing
    (ran : encodeAdaptiveRegion refusing region gate = .ok records) :
    records = region.map .raw := by
  rw [isRegion.encode_eq, bind_ok] at ran
  obtain ⟨trial, tried, recorded⟩ := ran
  cases trial with
  | none =>
    cases recorded
    rfl
  | some payload =>
    obtain ⟨occupied, _, bounded⟩ := regionTrial_within (refusing_within fun _ => 0) tried
    omega

end

theorem region_single (valid : chunk.Valid) : Region [chunk] where
  occupied := cons_ne_nil _ _
  valid := by
    intro other mem
    rw [mem_singleton.mp mem]
    exact valid
  small := by
    exact valid.2.trans (by decide)

theorem rawBytes_single (chunk : PrehashedChunk) : rawBytes [chunk] = chunk.rawLength := by
  simp [rawBytes]

/-- What holds of the prepared Record of a Chunk. -/
structure Prepares (chunk : PrehashedChunk) (record : PreparedIndependentRecord) : Prop where
  same : record.chunk = chunk
  sound : SoundRecord (.preparedIndependent record) record.recordLength
  short : record.recordLength ≤ chunk.rawLength

theorem prepare_of_valid (valid : chunk.Valid) (within : codec.Within bound) :
    ∃ record, preparePrehashedIndependentRecord codec chunk = .ok record ∧
      Prepares chunk record := by
  have isRegion := region_single valid
  have ungated : Gated .off [chunk] → payloadCap [chunk] ≤ MAX_DECODED_RECORD_BYTES :=
    fun gated => absurd rfl gated.1
  obtain ⟨trial, tried⟩ := @regionTrial_of_fits [chunk] codec .off ungated
  unfold preparePrehashedIndependentRecord
  rw [isRegion.encode_eq, tried, ok_bind]
  cases trial with
  | none =>
    have raw := soundRecord_raw valid
    refine ⟨{ chunk, payload := none, recordLength := chunk.rawLength }, ?_, rfl, ?_, le_rfl⟩
    · exact bind_ok.mpr ⟨_, rfl, bind_ok.mpr ⟨_, rawRecordLength_of_valid valid, rfl⟩⟩
    · exact { raw with recordLength := rfl }
  | some payload =>
    obtain ⟨occupied, capped, _⟩ := regionTrial_within within tried
    have saving := saving_of_cap occupied capped
    rw [rawBytes_single] at saving
    have short : alignUp (payloadOffset [chunk] + payload.length) RECORD_ALIGNMENT ≤
        chunk.rawLength := by omega
    have fits := short.trans valid.rawLength_le
    have sound := soundRecord_zstd isRegion occupied fits
    refine ⟨{ chunk, payload := some payload,
              recordLength := alignUp (payloadOffset [chunk] + payload.length) RECORD_ALIGNMENT },
      ?_, rfl, ?_, short⟩
    · rw [(regionRecords_some isRegion occupied capped fits).1]
      exact bind_ok.mpr ⟨_, rfl, bind_ok.mpr ⟨_, sound.recordLength, rfl⟩⟩
    · refine ⟨rfl, sound.minimum, sound.maximum, sound.aligned, sound.occupied, sound.entries, ?_,
        ?_, sound.payload, rfl⟩
      · simp [chunkTable, decodedLength]
      · exact valid.2.trans (by decide)

theorem prepare_refusing (valid : chunk.Valid) {record : PreparedIndependentRecord}
    (ran : preparePrehashedIndependentRecord refusing chunk = .ok record) :
    record.recordLength = chunk.rawLength := by
  obtain ⟨records, encoded, prepared⟩ := bind_ok.mp ran
  rw [(region_single valid).encode_refusing encoded] at prepared
  obtain ⟨length, measured, same⟩ := bind_ok.mp prepared
  rw [rawRecordLength_of_valid valid] at measured
  cases measured
  cases same
  rfl

end Fastdup.Format.Container
