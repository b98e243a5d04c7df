import Fastdup.Format.Commit
import Fastdup.Library.FaultyStorage

/-!
# The Generation Log

The Namespace Commit Log lives in two fixed slots. A slot holds at most 64 encoded
Commit Records; when the selected slot is full, the next append empties the other
slot and writes a copy of the last record, the bridge, followed by the new record.
Loading decodes both slots independently and selects one continuous chain.

The functions follow `generation_log.rs`. Failed allocations are not modelled.
-/

namespace Fastdup.Store

open Library Format Program

/-- The records of the log name their Namespace Root by its 32-byte identity. -/
abbrev LogRecord := CommitRecord MetadataObjectId

/-- The two segments that take turns. -/
def SLOT_NAMES : Fin 2 → String
  | 0 => "commit.wal"
  | 1 => "commit.1.wal"

def MAX_SEGMENT_RECORDS : ℕ := 64

def MAX_SEGMENT_BYTES : ℕ := MAX_SEGMENT_RECORDS * COMMIT_RECORD_BYTES

/-- What follows the accepted prefix of a slot. -/
inductive LogTail where
  | clean
  | torn (validBytes tailBytes : ℕ)
  | invalidRecord (offset : ℕ)
  | brokenChain (offset : ℕ)
  deriving DecidableEq, Repr

/-- Why the log refuses a call. -/
inductive GenerationLogError where
  | io (kind : IoErrorKind)
  | segmentTooLarge
  | brokenGenerationChain
  | divergentSlots
  | needsRepair (tail : LogTail)
  | emptyAfterInitialization
  | alreadyInitialized
  | publishVerificationMismatch
  deriving DecidableEq, Repr

/-- One decoded slot: its accepted bytes and records, and what follows them. -/
structure LogSnapshot where
  activeSlot : Fin 2
  bytes : Bytes
  records : List LogRecord
  tail : LogTail
  deriving DecidableEq

namespace LogSnapshot

def empty (activeSlot : Fin 2) : LogSnapshot where
  activeSlot := activeSlot
  bytes := []
  records := []
  tail := .clean

def lastRecord (snapshot : LogSnapshot) : Option LogRecord := snapshot.records.getLast?

def recordCount (snapshot : LogSnapshot) : ℕ := snapshot.records.length

def firstEncoded (snapshot : LogSnapshot) : Option Bytes :=
  if snapshot.records.isEmpty then none else some (snapshot.bytes.take COMMIT_RECORD_BYTES)

def lastEncoded (snapshot : LogSnapshot) : Option Bytes :=
  if snapshot.records.isEmpty then none
  else some (snapshot.bytes.drop (snapshot.bytes.length - COMMIT_RECORD_BYTES))

/-- The hash that the next record must name. -/
def lastHash (digests : Digests) (snapshot : LogSnapshot) : Option CommitRecordHash :=
  snapshot.lastEncoded.map (CommitRecordHash.of digests)

/-- A full segment sends the next record to the other slot. -/
def willRotate (snapshot : LogSnapshot) : Bool :=
  decide (snapshot.recordCount ≥ MAX_SEGMENT_RECORDS)

/-- The writer's snapshot after one verified and synchronized append. Rotation keeps
only the bridge pair that the new slot stores. -/
def advanced (snapshot : LogSnapshot) (targetSlot : Fin 2) (rotating : Bool)
    (record : LogRecord) (bytes : Bytes) : LogSnapshot where
  activeSlot := targetSlot
  bytes := bytes
  records := (if rotating then snapshot.lastRecord.toList else snapshot.records) ++ [record]
  tail := .clean

end LogSnapshot

/-- The checks that link a record to the one stored before it. -/
structure Succeeds (digests : Digests) (previous record : LogRecord) : Prop where
  generation : previous.generation + 1 = record.generation
  hash : record.previousRecordHash = CommitRecordHash.of digests (previous.encode digests)
  cutoff : previous.namespaceMutationCutoff ≤ record.namespaceMutationCutoff
  reservation : previous.inodeReservationEnd ≤ record.inodeReservationEnd
  cursor : previous.inodeAllocationCursor ≤ record.inodeAllocationCursor

/-- Decodes the remaining complete records of a slot. `count` records start at
`offset`; `previous` is the last accepted record with the hash of its bytes. -/
def decodeRecords (digests : Digests) (slot : Fin 2) (bytes : Bytes) (count offset : ℕ)
    (records : List LogRecord) (previous : Option (LogRecord × CommitRecordHash)) :
    Except GenerationLogError LogSnapshot :=
  match count with
  | 0 =>
    let tailBytes := bytes.length - offset
    .ok {
      activeSlot := slot
      bytes := bytes.take offset
      records := records
      tail := if tailBytes = 0 then .clean else .torn offset tailBytes }
  | count + 1 =>
    let encoded := bytes.slice offset COMMIT_RECORD_BYTES
    match CommitRecord.decode digests encoded with
    | .error _ =>
      .ok ⟨slot, bytes.take offset, records, .invalidRecord offset⟩
    | .ok record =>
      let next := decodeRecords digests slot bytes count (offset + COMMIT_RECORD_BYTES)
        (records ++ [record]) (some (record, CommitRecordHash.of digests encoded))
      match previous with
      | none => next
      | some (previous, expectedHash) =>
        if previous.generation + 1 ≥ 2 ^ 64 then
          .error .brokenGenerationChain
        else if record.generation ≠ previous.generation + 1 ∨
            record.previousRecordHash ≠ expectedHash ∨
            record.namespaceMutationCutoff < previous.namespaceMutationCutoff ∨
            record.inodeReservationEnd < previous.inodeReservationEnd ∨
            record.inodeAllocationCursor < previous.inodeAllocationCursor then
          .ok ⟨slot, bytes.take offset, records, .brokenChain offset⟩
        else next

/-- Decodes the records of a slot. -/
def decodeSegment (digests : Digests) (slot : Fin 2) (bytes : Bytes) :
    Except GenerationLogError LogSnapshot :=
  decodeRecords digests slot bytes (bytes.length / COMMIT_RECORD_BYTES) 0 [] none

/-- The newer segment is current if it continues the other. -/
def selectPair (left right : LogSnapshot) (leftLast rightLast : LogRecord) :
    Except GenerationLogError (Option LogSnapshot) :=
  if leftLast.generation = rightLast.generation then
    if left.lastEncoded ≠ right.lastEncoded then
      .error .divergentSlots
    else if left.recordCount ≠ right.recordCount then
      .ok (some (if left.recordCount > right.recordCount then left else right))
    else if left.bytes ≠ right.bytes then
      .error .divergentSlots
    else
      .ok (some (if left.tail = .clean then left else right))
  else
    let (older, newer) :=
      if leftLast.generation < rightLast.generation then (left, right) else (right, left)
    if newer.firstEncoded ≠ older.lastEncoded then
      .error .divergentSlots
    else
      .ok (some newer)

/-- The current segment of those found. -/
def selectCurrent (segments : List LogSnapshot) :
    Except GenerationLogError (Option LogSnapshot) :=
  if segments.any (fun segment => segment.records.isEmpty && segment.tail ≠ .clean) then
    .error .brokenGenerationChain
  else
    match segments.filter (fun segment => !segment.records.isEmpty) with
    | [] => .ok none
    | [segment] => .ok (some segment)
    | left :: right :: _ =>
      -- Only two slot names exist, so a third segment is unreachable.
      match left.lastRecord, right.lastRecord with
      | some leftLast, some rightLast => selectPair left right leftLast rightLast
      | _, _ => .error .emptyAfterInitialization

/-- The record must continue the chain. -/
def verifySuccessor (digests : Digests) (snapshot : LogSnapshot) (record : LogRecord) :
    Except GenerationLogError Unit :=
  match snapshot.lastRecord with
  | none =>
    if record.generation = 1 ∧ record.previousRecordHash = CommitRecordHash.ZERO then
      .ok ()
    else
      .error .brokenGenerationChain
  | some previous =>
    if previous.generation + 1 ≠ record.generation ∨
        snapshot.lastHash digests ≠ some record.previousRecordHash ∨
        record.namespaceMutationCutoff < previous.namespaceMutationCutoff ∨
        record.inodeReservationEnd < previous.inodeReservationEnd ∨
        record.inodeAllocationCursor < previous.inodeAllocationCursor then
      .error .brokenGenerationChain
    else
      .ok ()

abbrev LogProgram := Program String GenerationLogError

namespace GenerationLog

/-- A storage call inside the log: its errors are the log's I/O errors. -/
def io {α : Type} (program : Program String IoErrorKind α) : LogProgram α :=
  program.mapError .io

/-- Creates a missing slot and makes it durable. -/
def ensureSlotExists (slot : Fin 2) : LogProgram Unit := do
  let present ← io («exists» (SLOT_NAMES slot))
  if present then do
    let length ← io (objectLen (SLOT_NAMES slot))
    if length > MAX_SEGMENT_BYTES then
      throw .segmentTooLarge
    else
      pure ()
  else do
    io (createNew (SLOT_NAMES slot))
    io (setLen (SLOT_NAMES slot) 0)
    io (syncFile (SLOT_NAMES slot))

def ensureSlotsExist : LogProgram Unit := do
  ensureSlotExists 0
  ensureSlotExists 1
  io syncRoot

/-- The length of a slot, or nothing when its name does not exist. -/
def slotLength (slot : Fin 2) : LogProgram (Option ℕ) :=
  tryCatch (io (objectLen (SLOT_NAMES slot)) >>= fun length => pure (some length))
    (fun error => if error = .io .notFound then pure none else throw error)

def readSegment (digests : Digests) (slot : Fin 2) (length : ℕ) : LogProgram (List LogSnapshot) :=
  if length > MAX_SEGMENT_BYTES then
    throw .segmentTooLarge
  else do
    let bytes ← io (read (SLOT_NAMES slot))
    if bytes.length ≠ length then
      throw .publishVerificationMismatch
    else do
      let segment ← settle (decodeSegment digests slot bytes)
      pure [segment]

def loadSlot (digests : Digests) (slot : Fin 2) : LogProgram (List LogSnapshot) := do
  match ← slotLength slot with
  | none => pure []
  | some length => readSegment digests slot length

/-- Reads both slots and selects the current one. -/
def load (digests : Digests) : LogProgram (Option LogSnapshot) := do
  let first ← loadSlot digests 0
  let second ← loadSlot digests 1
  settle (selectCurrent (first ++ second))

def loadForRecovery (digests : Digests) : LogProgram (Option LogSnapshot) :=
  load digests

def loadForAppend (digests : Digests) : LogProgram LogSnapshot := do
  ensureSlotsExist
  match ← load digests with
  | some snapshot => pure snapshot
  | none => pure (LogSnapshot.empty 0)

/-- The slot an append writes, and the complete bytes it must hold afterwards. -/
def appendTarget (snapshot : LogSnapshot) (encodedRecord : Bytes) :
    Except GenerationLogError (Fin 2 × Bytes) :=
  if snapshot.recordCount ≥ MAX_SEGMENT_RECORDS then
    match snapshot.lastEncoded with
    | none => .error .emptyAfterInitialization
    | some last => .ok (1 - snapshot.activeSlot, last ++ encodedRecord)
  else
    .ok (snapshot.activeSlot, snapshot.bytes ++ encodedRecord)

/-- Writes the new bytes of the target slot and returns the range to read back. -/
def writeTarget (snapshot : LogSnapshot) (encodedRecord : Bytes) (targetSlot : Fin 2)
    (expected : Bytes) : LogProgram (ℕ × Bytes) :=
  if targetSlot = snapshot.activeSlot then do
    io (writeAt (SLOT_NAMES targetSlot) snapshot.bytes.length encodedRecord)
    pure (snapshot.bytes.length, expected.drop snapshot.bytes.length)
  else do
    io (setLen (SLOT_NAMES targetSlot) 0)
    io (writeAt (SLOT_NAMES targetSlot) 0 (expected.take COMMIT_RECORD_BYTES))
    io (writeAt (SLOT_NAMES targetSlot) COMMIT_RECORD_BYTES (expected.drop COMMIT_RECORD_BYTES))
    pure (0, expected)

/-- Fixes the exact length of the target slot, reads the new range back and
synchronizes it. The synchronized slot is the only commit point. -/
def verifyAndSync (targetSlot : Fin 2) (length verifyOffset : ℕ) (verifyBytes : Bytes) :
    LogProgram Unit := do
  io (setLen (SLOT_NAMES targetSlot) length)
  let reread ← io (readExactAt (SLOT_NAMES targetSlot) verifyOffset verifyBytes.length)
  if reread ≠ verifyBytes then
    throw .publishVerificationMismatch
  else
    io (syncFile (SLOT_NAMES targetSlot))

/-- Writes a record, syncs it and reads it back. -/
def publishRecord (digests : Digests) (snapshot : LogSnapshot) (record : LogRecord)
    (targetSlot : Fin 2) (expected : Bytes) : LogProgram LogSnapshot := do
  let verify ← writeTarget snapshot (record.encode digests) targetSlot expected
  verifyAndSync targetSlot expected.length verify.1 verify.2
  pure (snapshot.advanced targetSlot snapshot.willRotate record expected)

/-- Appends a record, in the other slot if this one is full. -/
def append (digests : Digests) (snapshot : LogSnapshot) (record : LogRecord) :
    LogProgram LogSnapshot :=
  if snapshot.tail ≠ .clean then
    throw (.needsRepair snapshot.tail)
  else do
    settle (verifySuccessor digests snapshot record)
    let target ← settle (appendTarget snapshot (record.encode digests))
    publishRecord digests snapshot record target.1 target.2

/-- Drops the invalid suffix after the exact already-validated head. -/
def repairTail (digests : Digests) (expected : LogRecord) : LogProgram Unit := do
  match ← load digests with
  | none => throw .emptyAfterInitialization
  | some snapshot =>
    if snapshot.lastRecord ≠ some expected then
      throw .publishVerificationMismatch
    else if snapshot.tail = .clean then
      pure ()
    else do
      io (setLen (SLOT_NAMES snapshot.activeSlot) snapshot.bytes.length)
      let bytes ← io (read (SLOT_NAMES snapshot.activeSlot))
      let verified ← settle (decodeSegment digests snapshot.activeSlot bytes)
      if verified.tail ≠ .clean ∨ verified.bytes ≠ snapshot.bytes then
        throw .publishVerificationMismatch
      else
        io (syncFile (SLOT_NAMES snapshot.activeSlot))

end GenerationLog

end Fastdup.Store
