import Fastdup.Store.GenerationLog.History

/-!
# What recovery finds after a crash

Recovery after any history returns a chain of attempted records that is never older than
the newest acknowledged append, and after appends that all returned but the last it finds
the acknowledged chain unless the interruption tore the first record of an emptied slot.
-/

namespace Fastdup.Store

open Library Format Program GenerationLog Function List LogState Bytes CommitRecordHash

variable {digests : Digests}

/-- The record is the newest acknowledged one, or ends a chain of records whose appends
failed afterwards, the first of which extends the acknowledged one. -/
def ReachedFromAcknowledged (digests : Digests) (attempts : List Attempt) (head : LogRecord) :
    Prop :=
  ∃ failed, failed.Sublist (failedSince attempts) ∧
    Chained digests ((newestAcknowledged attempts).toList ++ failed) ∧
    ((newestAcknowledged attempts).toList ++ failed).getLast? = some head

variable {attempts : List Attempt}

theorem Holds.reached {chain records : List LogRecord} {head : LogRecord}
    (holds : Holds digests attempts chain) (suffix : records <:+ chain)
    (lastRecord : records.getLast? = some head) :
    ReachedFromAcknowledged digests attempts head := by
  rcases holds.ending with ⟨failed, since, ending, initially⟩
  refine ⟨failed, since, holds.chained.suffix ending, ?_⟩
  have nonempty : records ≠ [] := by
    rintro rfl
    cases lastRecord
  have chainLast : chain.getLast? = some head := by
    rw [getLast?_of_suffix suffix nonempty, lastRecord]
  have endingNonempty : (newestAcknowledged attempts).toList ++ failed ≠ [] := by
    intro empty
    rcases append_eq_nil_iff.mp empty with ⟨missing, noFailed⟩
    have whole := initially (Option.toList_eq_nil_iff.mp missing)
    rw [noFailed] at whole
    rw [← whole] at chainLast
    cases chainLast
  rw [← getLast?_of_suffix ending endingNonempty]
  exact chainLast

variable {chain : List LogRecord}

theorem load_of_tracks {state : LogState} {view : View} {cut : Option Cut} {snapshot : LogSnapshot}
    {world : World String} (tracks : Tracks digests state view chain)
    (recovered : loadForRecovery digests ⟨state.objects, cut⟩ = (.ok (some snapshot), world)) :
    snapshot.records <:+ chain ∧ snapshot.records ≠ [] := by
  have outcome := (load_reads digests).triple state.objects ⟨state.objects, cut⟩ rfl
  rw [loadForRecovery] at recovered
  rw [recovered] at outcome
  have loaded := outcome.2
  rw [loaded_of_shape tracks.shape] at loaded
  have shape := tracks.shape
  have shows := tracks.shows
  cases view with
  | blank => cases loaded
  | broken => cases loaded
  | live slot records tail =>
    cases loaded
    exact ⟨shows, shape.nonempty⟩

/-- For every history, recovery returns a chain of attempted records whose head is the
newest acknowledged record or follows it through failed appends only, and no slot ever
holds more than 64 records. -/
theorem recovered_head_reached_from_acknowledged (digests : Digests) (events : List LogEvent) :
    (∀ cut snapshot world, loadForRecovery digests ⟨(LogState.run digests events).objects, cut⟩ =
        (.ok (some snapshot), world) → Chained digests snapshot.records ∧
      (∀ record ∈ snapshot.records,
        record ∈ (LogState.run digests events).attempts.map Attempt.record) ∧
      ∃ head, snapshot.lastRecord = some head ∧
        ReachedFromAcknowledged digests (LogState.run digests events).attempts head) ∧
    ∀ slot content, (LogState.run digests events).objects (SLOT_NAMES slot) = some content →
      content.length ≤ 64 * COMMIT_RECORD_BYTES := by
  rcases tracks_run digests events with ⟨view, chain, tracks⟩
  refine ⟨?_, fun slot content present => tracks.shape.length_le present⟩
  intro cut snapshot world recovered
  rcases load_of_tracks tracks recovered with ⟨suffix, nonempty⟩
  refine ⟨tracks.holds.chained.suffix suffix, ?_, ?_⟩
  · intro record mem
    exact tracks.holds.attempted (suffix.subset mem)
  · rcases Option.isSome_iff_exists.mp (getLast?_isSome.mpr nonempty) with ⟨head, lastRecord⟩
    exact ⟨head, lastRecord, tracks.holds.reached suffix lastRecord⟩

/-- The writer holds the clean snapshot of the current arrangement. -/
structure Ready (digests : Digests) (state : LogState) (view : View) (slot : Fin 2)
    (records : List LogRecord) : Prop where
  shape : Shape digests state.objects view
  writable : view.Writable slot records
  writer : state.writer = some (segment digests slot records [])
  present : ∀ other, (state.objects (SLOT_NAMES other)).isSome

section Ready

variable {state : LogState} {view : View} {slot : Fin 2} {records : List LogRecord}
  {record : LogRecord}

theorem View.Writable.readable (writable : view.Writable slot records) : view ≠ .broken := by
  rintro rfl
  exact writable

theorem View.Writable.opens (writable : view.Writable slot records) {snapshot : LogSnapshot}
    (opens : view.Opens digests snapshot) : snapshot = segment digests slot records [] := by
  rcases writable.cases with ⟨rfl, rfl, rfl⟩ | rfl
  all_goals exact opens

theorem Ready.reload (shape : Shape digests state.objects view)
    (writable : view.Writable slot records) :
    Ready digests (state.step digests (.reload none)) view slot records ∧
      (state.step digests (.reload none)).attempts = state.attempts := by
  rcases loadForAppend_completes shape writable.readable with ⟨snapshot, objects', completes⟩
  rcases completes.post (loadForAppend_triple shape) rfl with ⟨provisioned, found, opens⟩
  have stepped : state.step digests (.reload none) =
      { state with objects := objects', writer := some snapshot } := by
    simp only [step]
    rw [completes]
    rfl
  rw [stepped]
  refine ⟨⟨provisioned.shape shape, writable, ?_, found⟩, rfl⟩
  rw [writable.opens opens]

theorem Ready.append (ready : Ready digests state view slot records)
    (continues : Continues digests records record) :
    ∃ slot' records', Advances slot records record slot' records' ∧
      Ready digests (state.step digests (.append record none)) (.live slot' records' []) slot'
        records' ∧
      (state.step digests (.append record none)).attempts = ⟨record, true⟩ :: state.attempts := by
  rcases append_completes ready.shape ready.writable ready.present continues with
    ⟨snapshot, objects', completes⟩
  rcases completes.post (append_triple ready.shape ready.writable ready.present) rfl with
    ⟨slot', records', _, advances, rfl, shape, found⟩
  have stepped : state.step digests (.append record none) =
      ⟨objects', some (segment digests slot' records' []), ⟨record, true⟩ :: state.attempts⟩ := by
    simp only [step, ready.writer]
    rw [completes]
    rfl
  rw [stepped]
  exact ⟨slot', records', advances, ⟨shape, ⟨rfl, rfl, rfl⟩, rfl, found⟩, rfl⟩

/-- A write that reached the slot is found again although the append failed. -/
theorem Ready.append_unsynced (ready : Ready digests state view slot records)
    (room : records.length < MAX_SEGMENT_RECORDS) (continues : Continues digests records record) :
    Shape digests (state.step digests (.append record (some ⟨1, 0⟩))).objects
        (.live slot (records ++ [record]) []) ∧
      (state.step digests (.append record (some ⟨1, 0⟩))).attempts =
        ⟨record, false⟩ :: state.attempts := by
  have stored := content_of_writable ready.shape ready.writable ready.present
  have failed : GenerationLog.append digests (segment digests slot records []) record
      ⟨state.objects, some ⟨1, 0⟩⟩ = (.error (.io .interrupted),
        ⟨update state.objects (SLOT_NAMES slot)
          (some (encodeAll digests (records ++ [record]))), none⟩) := by
    rw [append_accepted tail_segment_clean (verifySuccessor_of_continues continues)
      (appendTarget_extend room), publishRecord, writeTarget,
      if_pos (show slot = (segment digests slot records []).activeSlot from rfl)]
    have written := writeAt_ahead stored.clean (encodeAll digests records).length 0 0
      (record.encode digests)
    rw [overwrite_end, ← encodeAll_concat] at written
    simp [bind_apply, io, mapError_apply, segment, written, verifyAndSync, setLen_cut,
      Except.mapError]
  have extended := Stores.concat stored.chained continues room
  simp only [step, ready.writer, failed, appended, and_true]
  exact ready.shape.write ready.writable room (prefix_append _ _) (by simp) extended

/-- A first write that is torn inside its record leaves the log unreadable. -/
theorem Ready.append_torn {kept : ℕ} (ready : Ready digests state .blank 0 [])
    (starts : record.generation = 1) (positive : 0 < kept) (short : kept < COMMIT_RECORD_BYTES) :
    Shape digests (state.step digests (.append record (some ⟨0, kept⟩))).objects .broken ∧
      (state.step digests (.append record (some ⟨0, kept⟩))).attempts =
        ⟨record, false⟩ :: state.attempts := by
  have stored := content_of_writable ready.shape ready.writable ready.present
  have continues : Continues digests [] record := starts
  have length : ((record.encode digests).take kept).length = kept := by
    rw [length_take, CommitRecord.length_encode]
    omega
  have failed : GenerationLog.append digests (segment digests 0 [] []) record
      ⟨state.objects, some ⟨0, kept⟩⟩ = (.error (.io .interrupted),
        ⟨update state.objects (SLOT_NAMES 0)
          (some (encodeAll digests [] ++ (record.encode digests).take kept)), none⟩) := by
    rw [append_accepted tail_segment_clean (verifySuccessor_of_continues continues)
      (appendTarget_extend (by decide)), publishRecord, writeTarget,
      if_pos (show 0 = (segment digests 0 [] []).activeSlot from rfl)]
    have written := writeAt_cut stored.clean (encodeAll digests []).length kept
      (record.encode digests)
    rw [overwrite_end] at written
    simp [bind_apply, io, mapError_apply, segment, written, Except.mapError]
  have started : Stores digests (some (encodeAll digests [] ++ (record.encode digests).take kept))
      [] ((record.encode digests).take kept) :=
    Stores.of_prefix isChain_nil (by decide) (by omega)
  simp only [step, ready.writer, failed, appended, and_true]
  rcases ready.shape with ⟨vacant⟩
  apply Shape.tornStart
    (show Stores digests (update state.objects (SLOT_NAMES 0) _ (SLOT_NAMES 0)) [] _ from started)
  · rw [← length_pos_iff, length]
    exact positive
  · exact vacant _

end Ready

/-- Digests under which the hash of an encoded record spells its generation, so that
records of different generations never collide. -/
def sampleDigests : Digests :=
  .unchecked fun bytes => ⟨Bytes.leEncode 32 (getU64 bytes 40), by simp⟩

theorem length_ones : (List.replicate 32 (1 : UInt8)).length = 32 := rfl

def sampleId : { bytes : Bytes.Fixed 32 // bytes ≠ Bytes.Fixed.zero 32 } :=
  ⟨⟨List.replicate 32 1, length_ones⟩, by decide⟩

theorem leEncode_eq_zero_iff (index : Fin 128) :
    leEncode 32 index = (Bytes.Fixed.zero 32).val ↔ index.val = 0 := by
  constructor
  · intro zero
    have decoded := congrArg leDecode zero
    rw [leDecode_leEncode_of_lt (by omega)] at decoded
    exact decoded.trans (by decide)
  · intro zero
    rw [zero]
    decide

instance many_records : NeZero 128 := ⟨by decide⟩

def sampleRecord (index : Fin 128) : LogRecord where
  generation := index + 1
  previousRecordHash := ⟨Bytes.leEncode 32 index, by simp⟩
  namespaceRoot := sampleId
  policySet := sampleId
  namespaceMutationCutoff := 0
  inodeReservationEnd := 2
  inodeAllocationCursor := 2
  formatEpoch := CURRENT_REPOSITORY_FORMAT_EPOCH
  widths := ⟨by simp only; omega, by simp, by simp, by simp, rfl⟩
  chainStart := by
    refine ⟨Nat.succ_ne_zero _, ?_⟩
    rw [CommitRecordHash.ZERO, Subtype.ext_iff, leEncode_eq_zero_iff]
    omega
  reservation := le_refl 2
  allocation := ⟨le_refl 2, le_refl 2⟩

theorem sampleDigests_hash (record : LogRecord) :
    of sampleDigests (record.encode sampleDigests) =
      ⟨leEncode 32 record.generation, by simp⟩ := by
  have generation := CommitRecord.getU64_encode_generation sampleDigests record
  apply Subtype.ext
  change leEncode 32 (getU64 (record.encode sampleDigests) 40) = _
  rw [generation]

theorem sampleRecord_hash (index : Fin 128) :
    of sampleDigests ((sampleRecord index).encode sampleDigests) =
      ⟨leEncode 32 (index + 1), by simp⟩ :=
  sampleDigests_hash (sampleRecord index)

theorem sampleRecord_succeeds {index next : Fin 128} (following : index.val + 1 = next.val) :
    Succeeds sampleDigests (sampleRecord index) (sampleRecord next) where
  generation := by simp [sampleRecord, following]
  hash := by
    rw [sampleRecord_hash]
    simp [sampleRecord, following]
  cutoff := le_refl _
  reservation := le_refl _
  cursor := le_refl _

theorem sampleRecord_hash_injective {left right : Fin 128}
    (same : of sampleDigests ((sampleRecord left).encode sampleDigests) =
      of sampleDigests ((sampleRecord right).encode sampleDigests)) :
    left = right := by
  rw [sampleRecord_hash, sampleRecord_hash, Subtype.mk.injEq] at same
  have decoded := congrArg leDecode same
  rw [leDecode_leEncode_of_lt (by omega), leDecode_leEncode_of_lt (by omega)] at decoded
  omega

/-- One acknowledged append and one that reached the slot but did not return. -/
def unsyncedAppend : List LogEvent :=
  [.reload none, .append (sampleRecord 0) none, .append (sampleRecord 1) (some ⟨1, 0⟩)]

theorem ready_initial : Ready sampleDigests (initial.step sampleDigests (.reload none))
    .blank 0 [] ∧ (initial.step sampleDigests (.reload none)).attempts = [] :=
  Ready.reload (.blank fun _ => Or.inl rfl) ⟨rfl, rfl⟩

theorem shape_unsyncedAppend :
    Shape sampleDigests (run sampleDigests unsyncedAppend).objects
        (.live 0 [sampleRecord 0, sampleRecord 1] []) ∧
      (run sampleDigests unsyncedAppend).attempts =
        [⟨sampleRecord 1, false⟩, ⟨sampleRecord 0, true⟩] := by
  have first : Continues sampleDigests [] (sampleRecord 0) := rfl
  have second : Succeeds sampleDigests (sampleRecord 0) (sampleRecord 1) :=
    sampleRecord_succeeds rfl
  rcases ready_initial with ⟨opening, openingAttempts⟩
  rcases opening.append first with
    ⟨slot, records, ⟨_, rfl, rfl⟩ | ⟨full, _⟩, acknowledged, acknowledgedAttempts⟩
  · have unsynced := acknowledged.append_unsynced (by simp [MAX_SEGMENT_RECORDS]) second
    rw [acknowledgedAttempts, openingAttempts] at unsynced
    rw [run, unsyncedAppend, foldl_cons, foldl_cons, foldl_cons, foldl_nil]
    exact unsynced
  · cases full

/-- Two appends in a row reach the slot and fail at the next call; the writer reloads between
them. -/
def unsyncedHistory : List LogEvent :=
  [.reload none, .append (sampleRecord 0) none, .append (sampleRecord 1) (some ⟨1, 0⟩),
    .reload none, .append (sampleRecord 2) (some ⟨1, 0⟩)]

theorem shape_unsyncedHistory :
    Shape sampleDigests (run sampleDigests unsyncedHistory).objects
        (.live 0 [sampleRecord 0, sampleRecord 1, sampleRecord 2] []) ∧
      (run sampleDigests unsyncedHistory).attempts =
        [⟨sampleRecord 2, false⟩, ⟨sampleRecord 1, false⟩, ⟨sampleRecord 0, true⟩] := by
  have third : Succeeds sampleDigests (sampleRecord 1) (sampleRecord 2) := sampleRecord_succeeds rfl
  rcases Ready.reload shape_unsyncedAppend.1 ⟨rfl, rfl, rfl⟩ with ⟨reopened, attempts⟩
  have unsynced := reopened.append_unsynced (by simp [MAX_SEGMENT_RECORDS]) third
  rw [attempts, shape_unsyncedAppend.2] at unsynced
  have split : unsyncedHistory =
      unsyncedAppend ++ [.reload none, .append (sampleRecord 2) (some ⟨1, 0⟩)] := rfl
  rw [split, run, foldl_append, ← run, foldl_cons, foldl_cons, foldl_nil]
  exact unsynced

theorem load_unsyncedHistory : ∃ world, loadForRecovery sampleDigests
        ⟨(run sampleDigests unsyncedHistory).objects, none⟩ =
      (.ok (some (segment sampleDigests 0
        [sampleRecord 0, sampleRecord 1, sampleRecord 2] [])), world) := by
  have loaded := loaded_of_shape shape_unsyncedHistory.1
  exact ⟨_, Completes.of_reads (load_reads sampleDigests) loaded⟩

/-- Two appends in a row reached the slot and failed. -/
theorem recovered_head_reached_through_two_failures :
    ∃ world, loadForRecovery sampleDigests
        ⟨(LogState.run sampleDigests unsyncedHistory).objects, none⟩ =
      (.ok (some (segment sampleDigests 0
        [sampleRecord 0, sampleRecord 1, sampleRecord 2] [])), world) ∧
    ∃ head, ReachedFromAcknowledged sampleDigests
      (LogState.run sampleDigests unsyncedHistory).attempts head := by
  rcases load_unsyncedHistory with ⟨world, recovered⟩
  have reached := (recovered_head_reached_from_acknowledged sampleDigests unsyncedHistory).1
    none _ world recovered
  rcases reached.2.2 with ⟨head, _, reachedHead⟩
  exact ⟨world, recovered, head, reachedHead⟩

/-- The recovered head need not extend the newest acknowledged record directly. -/
theorem recovered_head_not_adjacent :
    (∃ world snapshot, loadForRecovery sampleDigests
        ⟨(LogState.run sampleDigests unsyncedHistory).objects, none⟩ =
      (.ok (some snapshot), world) ∧ snapshot.lastRecord = some (sampleRecord 2)) ∧
    newestAcknowledged (LogState.run sampleDigests unsyncedHistory).attempts =
      some (sampleRecord 0) ∧
    sampleRecord 2 ≠ sampleRecord 0 ∧
    ¬ Succeeds sampleDigests (sampleRecord 0) (sampleRecord 2) ∧
    ∀ left right : Fin 128,
      CommitRecordHash.of sampleDigests ((sampleRecord left).encode sampleDigests) =
        CommitRecordHash.of sampleDigests ((sampleRecord right).encode sampleDigests) →
      sampleRecord left = sampleRecord right := by
  rcases load_unsyncedHistory with ⟨world, recovered⟩
  refine ⟨⟨world, _, recovered, rfl⟩, ?_, ?_, ?_, ?_⟩
  · rw [shape_unsyncedHistory.2]
    rfl
  · intro same
    have generation := congrArg (fun record : LogRecord => record.generation) same
    cases generation
  · intro succeeds
    cases succeeds.generation
  · intro left right same
    rw [sampleRecord_hash_injective same]

def acknowledgedChain (attempts : List Attempt) : List LogRecord :=
  ((attempts.filter Attempt.acknowledged).map Attempt.record).reverse

theorem Holds.eq_acknowledgedChain (holds : Holds digests attempts chain)
    (successful : ∀ attempt ∈ attempts, attempt.acknowledged = true) :
    chain = acknowledgedChain attempts := by
  induction holds with
  | start => rfl
  | acknowledged _ _ ih =>
    rw [ih (fun attempt mem => successful attempt (mem_cons_of_mem _ mem))]
    simp [acknowledgedChain]
  | lost _ _ _ | landed _ _ _ => cases successful _ mem_cons_self

theorem Holds.eq_or_extends (holds : Holds digests attempts chain)
    (successful : ∀ attempt ∈ attempts.tail, attempt.acknowledged = true) :
    chain = acknowledgedChain attempts ∨ ∃ record, attempts.head? = some ⟨record, false⟩ ∧
      chain = acknowledgedChain attempts ++ [record] := by
  cases holds with
  | start => exact Or.inl rfl
  | acknowledged before _ | lost _ before =>
    rw [before.eq_acknowledgedChain successful]
    simp [acknowledgedChain]
  | @landed _ _ record before _ =>
    rw [before.eq_acknowledgedChain successful]
    right
    refine ⟨record, rfl, ?_⟩
    simp [acknowledgedChain]

/-- Some slot holds a nonempty part of its first record only. -/
def TornFirst (objects : Objects String) : Prop :=
  ∃ slot content, objects (SLOT_NAMES slot) = some content ∧ 0 < content.length ∧
    content.length < COMMIT_RECORD_BYTES

section Torn

variable {objects : Objects String} {view : View} {slot : Fin 2} {records : List LogRecord}
  {tail : Bytes}

theorem Stores.tornFirst (stored : Stores digests (objects (SLOT_NAMES slot)) [] tail)
    (nonempty : tail ≠ []) : TornFirst objects :=
  ⟨slot, tail, stored.content_eq, length_pos_iff.mpr nonempty, stored.short⟩

theorem Stores.length_ge {content : Bytes} (stored : Stores digests (some content) records tail)
    (nonempty : records ≠ []) : COMMIT_RECORD_BYTES ≤ content.length := by
  have same := Option.some.inj stored.content_eq
  subst same
  have count := length_pos_iff.mpr nonempty
  rw [length_append, length_encodeAll]
  have one : 1 * COMMIT_RECORD_BYTES ≤ records.length * COMMIT_RECORD_BYTES :=
    Nat.mul_le_mul_right _ count
  omega

theorem Shape.tornFirst_iff (shape : Shape digests objects view) :
    TornFirst objects ↔ view = .broken := by
  constructor
  · rintro ⟨slot, content, found, positive, short⟩
    have cases := shape.slot_cases slot
    rw [found] at cases
    rcases cases with (absent | empty) | ⟨records, tail, nonempty, stored⟩ | ⟨broken, _⟩
    · cases absent
    · cases empty
      cases positive
    · have complete := stored.length_ge nonempty
      omega
    · exact broken
  · rintro rfl
    cases shape with
    | tornStart stored nonempty _ => exact stored.tornFirst nonempty
    | tornBridge _ _ bridge nonempty => exact bridge.tornFirst nonempty

end Torn

section Resume

variable {state : LogState} {view : View} {slot : Fin 2} {records : List LogRecord}
  {tail : Bytes} {head next : LogRecord}

theorem resume_after_repair (shape : Shape digests state.objects (.live slot records tail))
    (lastRecord : records.getLast? = some head) (succeeds : Succeeds digests head next) :
    ((((state.step digests .crash).step digests (.repairTail head none)).step digests
      (.reload none)).step digests (.append next none)).attempts =
        ⟨next, true⟩ :: state.attempts := by
  rcases repairTail_completes shape lastRecord with ⟨objects', completes⟩
  have repaired : ((state.step digests .crash).step digests (.repairTail head none)) =
      ⟨objects', none, state.attempts⟩ := by
    simp only [step]
    rw [completes]
  have clean : Shape digests (mk objects' none state.attempts).objects
      (.live slot records []) := by
    rcases completes.post (repairTail_triple shape head) rfl with
      ⟨slot', records', tail', same, _, rfl⟩
    cases same
    exact shape.repair
  have continues : Continues digests records next := by
    unfold Continues
    rw [lastRecord]
    exact succeeds
  rw [repaired]
  rcases Ready.reload clean ⟨rfl, rfl, rfl⟩ with ⟨ready, attempts⟩
  rcases ready.append continues with ⟨_, _, _, _, acknowledged⟩
  rw [acknowledged, attempts]

theorem resume_when_blank (shape : Shape digests state.objects .blank)
    (starts : next.generation = 1) :
    (((state.step digests .crash).step digests (.reload none)).step digests
      (.append next none)).attempts = ⟨next, true⟩ :: state.attempts := by
  have crashed : Shape digests (state.step digests .crash).objects .blank := shape
  have continues : Continues digests [] next := starts
  rcases Ready.reload crashed ⟨rfl, rfl⟩ with ⟨ready, attempts⟩
  rcases ready.append continues with ⟨_, _, _, _, acknowledged⟩
  rw [acknowledged, attempts]
  rfl

end Resume

/-- What recovery finds when every append but the newest returned: it refuses a torn first
record, and otherwise it finds the acknowledged chain or that chain with the record in
flight; repairing its head lets the next append return. -/
theorem interrupted_appends_recover (digests : Digests) (events : List LogEvent)
    (successful : ∀ attempt ∈ (LogState.run digests events).attempts.tail,
      attempt.acknowledged = true) :
    (TornFirst (LogState.run digests events).objects →
      ∃ world, loadForRecovery digests ⟨(LogState.run digests events).objects, none⟩ =
        (.error .brokenGenerationChain, world)) ∧
    (¬ TornFirst (LogState.run digests events).objects →
      ((∃ world, loadForRecovery digests ⟨(LogState.run digests events).objects, none⟩ =
          (.ok none, world)) ∧ acknowledgedChain (LogState.run digests events).attempts = [] ∧
        ∀ next : LogRecord, next.generation = 1 → (LogState.run digests (events ++
            [.crash, .reload none, .append next none])).attempts.head? = some ⟨next, true⟩) ∨
      ∃ snapshot head,
        (∃ world, loadForRecovery digests ⟨(LogState.run digests events).objects, none⟩ =
          (.ok (some snapshot), world)) ∧ snapshot.lastRecord = some head ∧
        (snapshot.records <:+ acknowledgedChain (LogState.run digests events).attempts ∨
          ∃ record, (LogState.run digests events).attempts.head? = some ⟨record, false⟩ ∧
            snapshot.records <:+
              acknowledgedChain (LogState.run digests events).attempts ++ [record]) ∧
        ∀ next, Succeeds digests head next → (LogState.run digests (events ++
            [.crash, .repairTail head none, .reload none, .append next none])).attempts.head? =
              some ⟨next, true⟩) := by
  rcases tracks_run digests events with ⟨view, chain, tracks⟩
  have loaded : ∃ world, loadForRecovery digests
      ⟨(run digests events).objects, none⟩ = (view.loaded digests, world) := by
    have read := (load_reads digests).uncut (run digests events).objects
    rw [loaded_of_shape tracks.shape] at read
    exact ⟨_, read⟩
  have shape := tracks.shape
  have shows := tracks.shows
  refine ⟨?_, ?_⟩
  · intro torn
    have broken := shape.tornFirst_iff.mp torn
    rw [broken] at loaded
    exact loaded
  · intro whole
    have chainCases := tracks.holds.eq_or_extends successful
    cases view with
    | blank =>
      left
      refine ⟨loaded, ?_, ?_⟩
      · rcases chainCases with same | ⟨record, _, extended⟩
        · rw [← same, shows]
        · rw [shows] at extended
          exact absurd extended.symm (append_ne_nil_of_right_ne_nil _ (cons_ne_nil _ _))
      · intro next starts
        have resumed := resume_when_blank shape starts
        rw [run, foldl_append, foldl_cons, foldl_cons,
          foldl_cons, foldl_nil, ← run, resumed]
        rfl
    | broken => exact absurd (shape.tornFirst_iff.mpr rfl) whole
    | live slot records tail =>
      right
      rcases Option.isSome_iff_exists.mp (getLast?_isSome.mpr shape.nonempty) with
        ⟨head, lastRecord⟩
      refine ⟨segment digests slot records tail, head, loaded, lastRecord, ?_, ?_⟩
      · rcases chainCases with same | ⟨record, inFlight, extended⟩
        · exact Or.inl (same ▸ shows)
        · exact Or.inr ⟨record, inFlight, extended ▸ shows⟩
      · intro next succeeds
        have resumed := resume_after_repair shape lastRecord succeeds
        rw [run, foldl_append, foldl_cons, foldl_cons,
          foldl_cons, foldl_cons, foldl_nil, ← run, resumed]
        rfl

/-- An append that was written and not synced. -/
theorem interrupted_appends_recover_unsyncedAppend :
    ¬ TornFirst (LogState.run sampleDigests unsyncedAppend).objects ∧
      (∀ attempt ∈ (LogState.run sampleDigests unsyncedAppend).attempts.tail,
        attempt.acknowledged = true) ∧
      ∃ found world, loadForRecovery sampleDigests
        ⟨(LogState.run sampleDigests unsyncedAppend).objects, none⟩ = (.ok found, world) := by
  rcases shape_unsyncedAppend with ⟨shape, attempts⟩
  have whole : ¬ TornFirst _ := fun torn => by cases shape.tornFirst_iff.mp torn
  have successful : ∀ attempt ∈ (run sampleDigests unsyncedAppend).attempts.tail,
      attempt.acknowledged = true := by
    rw [attempts]
    simp
  refine ⟨whole, successful, ?_⟩
  rcases (interrupted_appends_recover sampleDigests _ successful).2 whole with
    ⟨⟨world, loaded⟩, _⟩ | ⟨snapshot, head, ⟨world, loaded⟩, _⟩
  · exact ⟨none, world, loaded⟩
  · exact ⟨some snapshot, world, loaded⟩

/-- One byte of the very first record makes the log unreadable. -/
theorem torn_first_append_unreadable :
    ∃ world, loadForRecovery sampleDigests ⟨(LogState.run sampleDigests
      [.reload none, .append (sampleRecord 0) (some ⟨0, 1⟩)]).objects, none⟩ =
        (.error .brokenGenerationChain, world) := by
  have starts : (sampleRecord 0).generation = 1 := rfl
  have shape := (ready_initial.1.append_torn starts Nat.one_pos
    (by decide : 1 < COMMIT_RECORD_BYTES)).1
  have read := (load_reads sampleDigests).uncut (run sampleDigests
    [.reload none, .append (sampleRecord 0) (some ⟨0, 1⟩)]).objects
  rw [run, foldl_cons, foldl_cons, foldl_nil] at read ⊢
  rw [loaded_of_shape shape] at read
  exact ⟨_, read⟩

end Fastdup.Store
