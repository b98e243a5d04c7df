import Fastdup.Store.GenerationLog
import Mathlib.Data.List.Chain

/-!
# Stored chains and what loading makes of them

`Shape` lists every arrangement of the two slots that appends, repairs and crashes
can leave, together with the chain a reader sees in it. `loaded_of_shape` computes
the result of loading for each arrangement; the rest of the development reasons about
arrangements and never opens the decoder again.
-/

namespace Fastdup.Store

open Library Format Program Nat List CommitRecord

variable (digests : Digests)

def encodeAll (records : List LogRecord) : Bytes :=
  records.flatMap (CommitRecord.encode digests)

theorem encodeAll_append (left right : List LogRecord) :
    encodeAll digests (left ++ right) = encodeAll digests left ++ encodeAll digests right := by
  simp [encodeAll]

theorem encodeAll_cons (record : LogRecord) (rest : List LogRecord) :
    encodeAll digests (record :: rest) = record.encode digests ++ encodeAll digests rest := by
  simp [encodeAll]

theorem length_encodeAll (records : List LogRecord) :
    (encodeAll digests records).length = records.length * COMMIT_RECORD_BYTES := by
  induction records with
  | nil => simp [encodeAll]
  | cons record rest ih =>
    rw [encodeAll_cons, length_append, length_encode, ih, length_cons]
    ring

/-- Consecutive records link by generation, hash and monotone fields. -/
abbrev Chained (records : List LogRecord) : Prop :=
  List.IsChain (Succeeds digests) records

/-- The decoded form of a slot that stores `records` followed by a short tail. -/
def segment (slot : Fin 2) (records : List LogRecord) (tail : Bytes) : LogSnapshot where
  activeSlot := slot
  bytes := encodeAll digests records
  records := records
  tail := if tail = [] then .clean else .torn (encodeAll digests records).length tail.length

/-- The induction follows the decoder: `accepted` is the prefix already decoded. -/
theorem decodeRecords_chain (slot : Fin 2) (tail : Bytes) (accepted rest : List LogRecord)
    (chained : Chained digests (accepted ++ rest)) :
    decodeRecords digests slot (encodeAll digests (accepted ++ rest) ++ tail) rest.length
        (accepted.length * COMMIT_RECORD_BYTES) accepted (accepted.getLast?.map
          (fun record => (record, CommitRecordHash.of digests (record.encode digests)))) =
      .ok (segment digests slot (accepted ++ rest) tail) := by
  induction rest generalizing accepted with
  | nil =>
    have prefixLength := length_encodeAll digests accepted
    have tailLength : (encodeAll digests accepted ++ tail).length -
        accepted.length * COMMIT_RECORD_BYTES = tail.length := by
      rw [length_append, prefixLength]
      omega
    simp only [append_nil, length_nil, decodeRecords, tailLength, segment,
      length_eq_zero_iff, prefixLength]
    rw [← prefixLength, take_left']
    rfl
  | cons record rest ih =>
    have prefixLength := length_encodeAll digests accepted
    have encoded : (encodeAll digests (accepted ++ record :: rest) ++ tail).slice
        (accepted.length * COMMIT_RECORD_BYTES) COMMIT_RECORD_BYTES = record.encode digests := by
      rw [encodeAll_append, encodeAll_cons, Bytes.slice, ← prefixLength, append_assoc,
        drop_left', append_assoc, take_left']
      · exact length_encode digests record
      · rfl
    have split : accepted ++ record :: rest = (accepted ++ [record]) ++ rest := by simp
    have next := ih (accepted ++ [record]) (by rw [← split]; exact chained)
    simp only [length_append, length_singleton, add_mul, one_mul,
      getLast?_append, getLast?_singleton, Option.some_or, Option.map_some] at next
    rw [← split] at next
    simp only [length_cons, decodeRecords, encoded, decode_encode, next]
    -- The first record of a slot has no predecessor to compare with.
    rcases last : accepted.getLast? with _ | previous
    · rfl
    · have succeeds : Succeeds digests previous record := by
        obtain ⟨front, rfl⟩ := getLast?_eq_some_iff.mp last
        rw [append_assoc, singleton_append] at chained
        exact (isChain_append.mp chained).2.1.rel
      have bounded := record.widths.generation
      simp only [Option.map_some]
      rw [if_neg (by have := succeeds.generation; omega), if_neg]
      rintro (broken | broken | broken | broken | broken)
      · exact broken succeeds.generation.symm
      · exact broken succeeds.hash
      · exact absurd succeeds.cutoff (by omega)
      · exact absurd succeeds.reservation (by omega)
      · exact absurd succeeds.cursor (by omega)

theorem decodeSegment_chain (slot : Fin 2) {records : List LogRecord} {tail : Bytes}
    (chained : Chained digests records) (short : tail.length < COMMIT_RECORD_BYTES) :
    decodeSegment digests slot (encodeAll digests records ++ tail) =
      .ok (segment digests slot records tail) := by
  have count : (encodeAll digests records ++ tail).length / COMMIT_RECORD_BYTES =
      records.length := by
    rw [length_append, length_encodeAll, mul_comm, mul_add_div (by decide),
      div_eq_of_lt short, add_zero]
  have decoded := decodeRecords_chain digests slot tail [] records chained
  rw [decodeSegment, count]
  simpa using decoded

def slotSegments (slot : Fin 2) (objects : Objects String) :
    Except GenerationLogError (List LogSnapshot) :=
  match objects (SLOT_NAMES slot) with
  | none => .ok []
  | some bytes =>
    if bytes.length > MAX_SEGMENT_BYTES then .error .segmentTooLarge
    else (decodeSegment digests slot bytes).map ([·])

/-- What a load without faults returns. -/
def loadResult (objects : Objects String) : Except GenerationLogError (Option LogSnapshot) := do
  let first ← slotSegments digests 0 objects
  let second ← slotSegments digests 1 objects
  selectCurrent (first ++ second)

namespace GenerationLog

theorem slotLength_reads (slot : Fin 2) :
    Reads (slotLength slot) (fun objects => .ok ((objects (SLOT_NAMES slot)).map List.length)) where
  uncut objects := by
    cases present : objects (SLOT_NAMES slot) <;>
      simp [slotLength, io, objectLen, tryCatch_apply, bind_apply, mapError_apply, requirePresent,
        present, Except.map, Except.mapError]
  triple objects := by
    have body : Triple (· = objects)
        (io (objectLen (SLOT_NAMES slot)) >>= fun length => pure (some length))
        (fun value objects' => objects' = objects ∧
          value = (objects (SLOT_NAMES slot)).map List.length)
        (fun error objects' => objects' = objects ∧
          (error = .io .notFound → objects (SLOT_NAMES slot) = none)) := by
      have length : Triple (· = objects) (io (objectLen (SLOT_NAMES slot)))
          (fun length objects' => objects' = objects ∧
            (objects (SLOT_NAMES slot)).map List.length = some length)
          (fun error objects' => objects' = objects ∧
            (error = .io .notFound → objects (SLOT_NAMES slot) = none)) := by
        apply Triple.mapError
        refine Triple.readCall.weaken ?_ ?_
        · rintro length objects' ⟨same, found⟩
          refine ⟨same, ?_⟩
          cases present : objects (SLOT_NAMES slot) <;>
            simp_all [requirePresent, Except.map]
        · rintro error objects' ⟨same, cause⟩
          refine ⟨same, ?_⟩
          intro missing
          cases present : objects (SLOT_NAMES slot) <;>
            simp_all [requirePresent, Except.map]
      apply Triple.bind length
      intro length
      apply Triple.pure
      rintro objects' ⟨same, found⟩
      exact ⟨same, found.symm⟩
    refine (Triple.tryCatch body ?_).weaken ?_ (fun _ _ => id)
    · intro error
      by_cases missing : error = .io .notFound
      · rw [if_pos missing]
        apply Triple.pure
        rintro objects' ⟨same, absent⟩
        exact ⟨same, by simp [absent missing]⟩
      · rw [if_neg missing]
        apply Triple.throw
        rintro objects' ⟨same, _⟩
        exact same
    · rintro value objects' ⟨same, found⟩
      exact ⟨same, by rw [found]⟩

/-- What `read_segment` makes of a slot that has the given length. -/
def segmentResult (slot : Fin 2) (length : ℕ) (objects : Objects String) :
    Except GenerationLogError (List LogSnapshot) :=
  if length > MAX_SEGMENT_BYTES then .error .segmentTooLarge
  else (requirePresent (SLOT_NAMES slot) objects).mapError .io >>= fun bytes =>
    if bytes.length ≠ length then .error .publishVerificationMismatch
    else decodeSegment digests slot bytes >>= fun segment => .ok [segment]

theorem readSegment_reads (slot : Fin 2) (length : ℕ) :
    Reads (readSegment digests slot length) (segmentResult digests slot length) := by
  unfold readSegment segmentResult
  by_cases large : length > MAX_SEGMENT_BYTES
  · simp only [if_pos large]
    exact Reads.throw _
  · simp only [if_neg large]
    apply Reads.bind (Reads.mapError (Reads.readCall _) _)
    intro bytes
    by_cases mismatch : bytes.length ≠ length
    · simp only [if_pos mismatch]
      exact Reads.throw _
    · simp only [if_neg mismatch]
      exact Reads.bind (Reads.settle _) (fun segment => Reads.pure _)

theorem loadSlot_reads (slot : Fin 2) :
    Reads (loadSlot digests slot) (slotSegments digests slot) := by
  have same : slotSegments digests slot = fun objects =>
      (Except.ok ((objects (SLOT_NAMES slot)).map List.length) : Except GenerationLogError _) >>=
        fun length => length.elim (.ok []) (segmentResult digests slot · objects) := by
    funext objects
    cases found : objects (SLOT_NAMES slot) with
    | none => simp [slotSegments, found, bind, Except.bind]
    | some bytes =>
      simp only [slotSegments, segmentResult, found, requirePresent, Except.mapError, bind,
        Except.bind, Option.map_some, Option.elim_some]
      cases decodeSegment digests slot bytes <;> simp [Except.map]
  rw [same]
  refine Reads.bind (slotLength_reads slot) fun length => ?_
  cases length with
  | none => exact Reads.pure []
  | some length => exact readSegment_reads digests slot length

theorem load_reads : Reads (load digests) (loadResult digests) := by
  apply Reads.bind (loadSlot_reads digests 0)
  intro first
  apply Reads.bind (loadSlot_reads digests 1)
  intro second
  exact Reads.settle _

end GenerationLog

/-- The slot content is a chain followed by a tail shorter than one record. -/
structure Stores (content : Option Bytes) (records : List LogRecord) (tail : Bytes) : Prop where
  content_eq : content = some (encodeAll digests records ++ tail)
  chained : Chained digests records
  short : tail.length < COMMIT_RECORD_BYTES
  bounded : records.length ≤ MAX_SEGMENT_RECORDS
  full : records.length = MAX_SEGMENT_RECORDS → tail = []

/-- The slot does not exist or is empty. -/
def Vacant (content : Option Bytes) : Prop := content = none ∨ content = some []

/-- What a reader sees: no chain, an unreadable log, or a chain in one slot. -/
inductive View where
  | blank
  | broken
  | live (slot : Fin 2) (records : List LogRecord) (tail : Bytes)

/-- The states of the two slots that a crash can leave. -/
inductive Shape (objects : Objects String) : View → Prop where
  | blank (vacant : ∀ slot, Vacant (objects (SLOT_NAMES slot))) : Shape objects .blank
  | tornStart {slot : Fin 2} {tail : Bytes}
      (stored : Stores digests (objects (SLOT_NAMES slot)) [] tail) (nonempty : tail ≠ [])
      (vacant : Vacant (objects (SLOT_NAMES (1 - slot)))) : Shape objects .broken
  | single {slot : Fin 2} {records : List LogRecord} {tail : Bytes}
      (stored : Stores digests (objects (SLOT_NAMES slot)) records tail)
      (nonempty : records ≠ [])
      (vacant : Vacant (objects (SLOT_NAMES (1 - slot)))) :
      Shape objects (.live slot records tail)
  | tornBridge {slot : Fin 2} {records : List LogRecord} {tail : Bytes}
      (stored : Stores digests (objects (SLOT_NAMES slot)) records [])
      (full : records.length = MAX_SEGMENT_RECORDS)
      (bridge : Stores digests (objects (SLOT_NAMES (1 - slot))) [] tail)
      (nonempty : tail ≠ []) : Shape objects .broken
  | bridged {slot : Fin 2} {records : List LogRecord} {last : LogRecord} {tail : Bytes}
      (stored : Stores digests (objects (SLOT_NAMES slot)) records [])
      (full : records.length = MAX_SEGMENT_RECORDS)
      (lastRecord : records.getLast? = some last)
      (bridge : Stores digests (objects (SLOT_NAMES (1 - slot))) [last] tail) :
      Shape objects (.live slot records [])
  | rotated {slot : Fin 2} {first second : LogRecord} {rest older : List LogRecord}
      {tail : Bytes}
      (stored : Stores digests (objects (SLOT_NAMES slot)) (first :: second :: rest) tail)
      (olderStored : Stores digests (objects (SLOT_NAMES (1 - slot))) older [])
      (olderFull : older.length = MAX_SEGMENT_RECORDS)
      (olderLast : older.getLast? = some first) :
      Shape objects (.live slot (first :: second :: rest) tail)

/-- What a load makes of the view. -/
def View.loaded : View → Except GenerationLogError (Option LogSnapshot)
  | .blank => .ok none
  | .broken => .error .brokenGenerationChain
  | .live slot records tail => .ok (some (segment digests slot records tail))

variable {digests} {last first : LogRecord} {rest : List LogRecord} {own other : List LogSnapshot}
  {objects : Objects String}

section Segments

variable {slot : Fin 2} {records : List LogRecord} {tail : Bytes}

theorem Stores.length_le {content : Bytes} (stored : Stores digests (some content) records tail) :
    content.length ≤ MAX_SEGMENT_BYTES := by
  have same := Option.some.inj stored.content_eq
  have short := stored.short
  have bounded := stored.bounded
  subst same
  rw [length_append, length_encodeAll]
  rcases lt_or_eq_of_le bounded with below | full
  · have step : (records.length + 1) * COMMIT_RECORD_BYTES ≤ MAX_SEGMENT_BYTES :=
      mul_le_mul_right _ below
    rw [add_mul] at step
    omega
  · rw [stored.full full, full]
    simp [MAX_SEGMENT_BYTES]

theorem slotSegments_of_stores (stored : Stores digests (objects (SLOT_NAMES slot)) records tail) :
    slotSegments digests slot objects = .ok [segment digests slot records tail] := by
  have content := stored.content_eq
  rw [content] at stored
  rw [slotSegments, content]
  simp only
  rw [if_neg (not_lt.mpr stored.length_le), decodeSegment_chain digests slot stored.chained
    stored.short]
  rfl

theorem Stores.of_empty {content : Option Bytes} (empty : content = some []) :
    Stores digests content [] [] where
  content_eq := by simp [empty, encodeAll]
  chained := isChain_nil
  short := by decide
  bounded := by simp
  full _ := rfl

theorem slotSegments_of_vacant (vacant : Vacant (objects (SLOT_NAMES slot))) :
    ∃ segments, slotSegments digests slot objects = .ok segments ∧
      ∀ segment ∈ segments, segment.records = [] ∧ segment.tail = .clean := by
  rcases vacant with missing | empty
  · exact ⟨[], by simp [slotSegments, missing], by simp⟩
  · exact ⟨_, slotSegments_of_stores (Stores.of_empty empty), by simp [segment]⟩

theorem lastRecord_segment : (segment digests slot records tail).lastRecord = records.getLast? :=
  rfl

theorem lastEncoded_segment (lastRecord : records.getLast? = some last) :
    (segment digests slot records tail).lastEncoded = some (last.encode digests) := by
  obtain ⟨front, rfl⟩ := getLast?_eq_some_iff.mp lastRecord
  have frontLength : (encodeAll digests (front ++ [last])).length - COMMIT_RECORD_BYTES =
      (encodeAll digests front).length := by
    simp only [length_encodeAll, length_append, length_singleton, add_mul]
    omega
  have encodedLast : encodeAll digests [last] = last.encode digests := by simp [encodeAll]
  simp only [LogSnapshot.lastEncoded, segment, frontLength]
  rw [encodeAll_append, drop_left', encodedLast]
  · simp
  · rfl

theorem firstEncoded_segment :
    (segment digests slot (first :: rest) tail).firstEncoded = some (first.encode digests) := by
  simp only [LogSnapshot.firstEncoded, segment, isEmpty_cons, encodeAll_cons]
  rw [take_left' (length_encode digests first)]
  rfl

theorem tail_segment_clean : (segment digests slot records []).tail = .clean := by
  simp [segment]

theorem tail_segment_ne_clean (nonempty : tail ≠ []) :
    (segment digests slot records tail).tail ≠ .clean := by
  simp [segment, nonempty]

end Segments

theorem generation_getLast_of_chained (chained : Chained digests (first :: rest))
    (lastRecord : (first :: rest).getLast? = some last) :
    last.generation = first.generation + rest.length := by
  induction rest generalizing first with
  | nil =>
    simp only [getLast?_singleton, Option.some.injEq] at lastRecord
    simp [lastRecord]
  | cons second rest ih =>
    have link := chained.rel
    rw [ih chained.tail lastRecord, ← link.generation, length_cons]
    omega

section Selection

variable {left right : LogSnapshot}

theorem selectCurrent_pair {leftLast rightLast : LogRecord}
    (leftLastRecord : left.lastRecord = some leftLast)
    (rightLastRecord : right.lastRecord = some rightLast) :
    selectCurrent [left, right] = selectPair left right leftLast rightLast := by
  have leftNonempty : left.records ≠ [] := by
    intro empty
    simp [LogSnapshot.lastRecord, empty] at leftLastRecord
  have rightNonempty : right.records ≠ [] := by
    intro empty
    simp [LogSnapshot.lastRecord, empty] at rightLastRecord
  simp [selectCurrent, leftNonempty, rightNonempty, leftLastRecord, rightLastRecord]

theorem selectCurrent_torn {segments : List LogSnapshot} {torn : LogSnapshot}
    (mem : torn ∈ segments) (empty : torn.records = []) (dirty : torn.tail ≠ .clean) :
    selectCurrent segments = .error .brokenGenerationChain := by
  rw [selectCurrent, if_pos]
  rw [any_eq_true]
  exact ⟨torn, mem, by simp [empty, dirty]⟩

theorem selectCurrent_inert
    (inert : ∀ segment ∈ other, segment.records = [] ∧ segment.tail = .clean) :
    selectCurrent (own ++ other) = selectCurrent own ∧
      selectCurrent (other ++ own) = selectCurrent own := by
  have dropped : other.filter (fun segment => !segment.records.isEmpty) = [] := by
    rw [filter_eq_nil_iff]
    intro segment mem
    simp [(inert segment mem).1]
  have untorn : other.any (fun segment => segment.records.isEmpty && segment.tail ≠ .clean) =
      false := by
    rw [any_eq_false]
    intro segment mem
    simp [(inert segment mem).2]
  constructor
  · simp only [selectCurrent, any_append, filter_append, dropped, untorn, Bool.or_false, append_nil]
  · simp only [selectCurrent, any_append, filter_append, dropped, untorn, Bool.false_or, nil_append]

theorem selectCurrent_single (nonempty : left.records ≠ []) :
    selectCurrent [left] = .ok (some left) := by
  simp [selectCurrent, nonempty]

theorem selectPair_equal_heads (last : LogRecord) (sameLast : left.lastEncoded = right.lastEncoded)
    (longer : right.recordCount < left.recordCount) :
    selectPair left right last last = .ok (some left) ∧
      selectPair right left last last = .ok (some left) := by
  constructor
  · rw [selectPair, if_pos rfl, if_neg (by simp [sameLast]), if_pos (by omega), if_pos longer]
  · rw [selectPair, if_pos rfl, if_neg (by simp [sameLast]), if_pos (by omega), if_neg (by omega)]

/-- Different heads: the newer slot is current when it starts with the older head. -/
theorem selectPair_newer {older newer : LogSnapshot} {olderLast newerLast : LogRecord}
    (later : olderLast.generation < newerLast.generation)
    (bridged : newer.firstEncoded = older.lastEncoded) :
    selectPair older newer olderLast newerLast = .ok (some newer) ∧
      selectPair newer older newerLast olderLast = .ok (some newer) := by
  constructor
  · rw [selectPair, if_neg (by omega), if_pos later]
    simp [bridged]
  · rw [selectPair, if_neg (by omega), if_neg (by omega)]
    simp [bridged]

end Selection

/-- Both orders of the slots reach the selection, depending on which slot is active. -/
theorem loadResult_of_segments {slot : Fin 2}
    {result : Except GenerationLogError (Option LogSnapshot)}
    (ownSegments : slotSegments digests slot objects = .ok own)
    (otherSegments : slotSegments digests (1 - slot) objects = .ok other)
    (selected : selectCurrent (own ++ other) = result ∧ selectCurrent (other ++ own) = result) :
    loadResult digests objects = result := by
  match slot with
  | 0 =>
    have otherSegments : slotSegments digests 1 objects = .ok other := otherSegments
    simp only [loadResult, ownSegments, otherSegments, bind, Except.bind]
    exact selected.1
  | 1 =>
    have otherSegments : slotSegments digests 0 objects = .ok other := otherSegments
    simp only [loadResult, ownSegments, otherSegments, bind, Except.bind]
    exact selected.2

theorem loaded_of_shape {view : View} (shape : Shape digests objects view) :
    loadResult digests objects = view.loaded digests := by
  cases shape with
  | blank vacant =>
    rcases slotSegments_of_vacant (vacant 0) with ⟨own, ownSegments, ownInert⟩
    rcases slotSegments_of_vacant (vacant 1) with ⟨other, otherSegments, otherInert⟩
    have empty : selectCurrent (other ++ []) = selectCurrent [] :=
      (selectCurrent_inert otherInert).2
    rw [append_nil] at empty
    apply loadResult_of_segments ownSegments otherSegments
    rw [(selectCurrent_inert ownInert).1, (selectCurrent_inert ownInert).2, empty]
    exact ⟨rfl, rfl⟩
  | tornStart stored nonempty vacant =>
    rcases slotSegments_of_vacant vacant with ⟨other, otherSegments, otherInert⟩
    apply loadResult_of_segments (slotSegments_of_stores stored) otherSegments
    constructor
    · exact selectCurrent_torn (mem_append_left _ (mem_singleton.mpr rfl)) rfl
        (tail_segment_ne_clean nonempty)
    · exact selectCurrent_torn (mem_append_right _ (mem_singleton.mpr rfl)) rfl
        (tail_segment_ne_clean nonempty)
  | single stored nonempty vacant =>
    rcases slotSegments_of_vacant vacant with ⟨other, otherSegments, otherInert⟩
    apply loadResult_of_segments (slotSegments_of_stores stored) otherSegments
    rw [(selectCurrent_inert otherInert).1, (selectCurrent_inert otherInert).2,
      selectCurrent_single nonempty]
    exact ⟨rfl, rfl⟩
  | tornBridge stored full bridge nonempty =>
    apply loadResult_of_segments (slotSegments_of_stores stored) (slotSegments_of_stores bridge)
    constructor
    · exact selectCurrent_torn (mem_append_right _ (mem_singleton.mpr rfl)) rfl
        (tail_segment_ne_clean nonempty)
    · exact selectCurrent_torn (mem_append_left _ (mem_singleton.mpr rfl)) rfl
        (tail_segment_ne_clean nonempty)
  | @bridged slot records last tail stored full lastRecord bridge =>
    apply loadResult_of_segments (slotSegments_of_stores stored) (slotSegments_of_stores bridge)
    have heads : (segment digests slot records []).lastEncoded =
        (segment digests (1 - slot) [last] tail).lastEncoded := by
      rw [lastEncoded_segment lastRecord, lastEncoded_segment getLast?_singleton]
    have selected := selectPair_equal_heads last heads (by
      simp [LogSnapshot.recordCount, segment, full, MAX_SEGMENT_RECORDS])
    have ownLast : (segment digests slot records []).lastRecord = some last := lastRecord
    have bridgeLast : (segment digests (1 - slot) [last] tail).lastRecord = some last := rfl
    exact ⟨(selectCurrent_pair ownLast bridgeLast).trans selected.1,
      (selectCurrent_pair bridgeLast ownLast).trans selected.2⟩
  | @rotated slot first second rest older tail stored olderStored olderFull olderLast =>
    apply loadResult_of_segments (slotSegments_of_stores stored)
      (slotSegments_of_stores olderStored)
    have bridge : (segment digests slot (first :: second :: rest) tail).firstEncoded =
        (segment digests (1 - slot) older []).lastEncoded := by
      rw [firstEncoded_segment, lastEncoded_segment olderLast]
    rcases last : (first :: second :: rest).getLast? with _ | newerLast
    · simp at last
    · have later : first.generation < newerLast.generation := by
        rw [generation_getLast_of_chained stored.chained last, length_cons]
        omega
      have selected := selectPair_newer later bridge
      have ownLast : (segment digests slot (first :: second :: rest) tail).lastRecord =
        some newerLast := last
      have olderLast : (segment digests (1 - slot) older []).lastRecord = some first := olderLast
      exact ⟨(selectCurrent_pair ownLast olderLast).trans selected.2,
        (selectCurrent_pair olderLast ownLast).trans selected.1⟩

end Fastdup.Store
