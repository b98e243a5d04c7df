import Fastdup.Store.Generation.Stored
import Fastdup.Store.GenerationLog.Crash
import Mathlib.Data.List.TakeWhile

/-!
# Recovering a generation

Recovery loads the Commit Log and scans it forward: it accepts records as long as their roots
can be read, agree with the record and follow from the root before. Of the accepted records it
then tries the latest two generations, newest first, and returns the first one whose whole
Manifest graph verifies. A failure that shows damage ends the forward scan or passes on to the
older candidate; any other failure ends the recovery.
-/

namespace Fastdup.Store

open Library Checked Format List Option

variable {ObjectId : Type}

/-- Every record is of the current format. -/
def validateFormatEpochCompatibility (records : List (CommitRecord ObjectId)) :
    Except (GenerationError ObjectId) Unit :=
  records.forM fun record =>
    require (record.formatEpoch ≠ CURRENT_REPOSITORY_FORMAT_EPOCH)
      (.unsupportedFormatEpoch record.generation record.formatEpoch)

def validateRecordCompatibility (supportedPolicy : PolicySetId)
    (records : List (CommitRecord ObjectId)) : Except (GenerationError ObjectId) Unit := do
  records.forM fun record =>
    require (record.policySet ≠ supportedPolicy)
      (.unsupportedPolicySet record.generation record.policySet)
  validateFormatEpochCompatibility records

/-- The transition to a root from the record and the root accepted before it. The very first
generation has to be empty. -/
def acceptsTransition (previous : Option (Generation ObjectId))
    (record : CommitRecord ObjectId) (root : NamespaceRoot ObjectId) : Bool :=
  match previous with
  | some (previousRecord, previousRoot) =>
    (verifyGenerationTransitionPair previousRecord previousRoot root).toBool
  | none =>
    !decide (record.generation = 1 ∧ (root.inodeAllocationCursor ≠ 2 ∨ root.inodes ≠ []))

/-- Follows the records while each is a valid step from the one before. -/
def acceptRecords (read : MetadataReader ObjectId)
    (previous : Option (Generation ObjectId)) :
    List (CommitRecord ObjectId) → Except (GenerationError ObjectId) (List (CommitRecord ObjectId))
  | [] => .ok []
  | record :: rest =>
    match readNamespaceRoot read record.namespaceRoot with
    | .error error => if error.allowsGenerationFallback then .ok [] else .error error
    | .ok root =>
      if recordMatchesNamespaceRoot record root && acceptsTransition previous record root then
        do
        let others ← acceptRecords read (some (record, root)) rest
        return record :: others
      else .ok []

/-- The longest prefix of valid steps. -/
def validateRecoveryTransitionPrefix (supportedPolicy : PolicySetId)
    (read : MetadataReader ObjectId) (records : List (CommitRecord ObjectId)) :
    Except (GenerationError ObjectId) (List (CommitRecord ObjectId)) := do
  validateRecordCompatibility supportedPolicy records
  acceptRecords read none records

/-- A record whose whole graph was verified. -/
structure SelectedGraph (ObjectId : Type) where
  record : CommitRecord ObjectId
  root : NamespaceRoot ObjectId
  manifests : VerifiedManifests ObjectId

/-- The check that the owner of the repository makes on the Chunks of a graph, given as the map
from each Chunk to its length. -/
abbrev ChunkVerifier (ObjectId : Type) :=
  (ChunkId → Option ℕ) → Except (GenerationError ObjectId) Unit

/-- The complete check of one candidate. Nothing is returned when its root does not match. -/
def verifyCandidate (read : MetadataReader ObjectId) (verify : ChunkVerifier ObjectId)
    (record : CommitRecord ObjectId) :
    Except (GenerationError ObjectId) (Option (SelectedGraph ObjectId)) := do
  let root ← readNamespaceRoot read record.namespaceRoot
  if recordMatchesNamespaceRoot record root then do
    let (manifests, required) ← scanManifestGraphWithRequired read root
    verify fun chunkId => required.lookup chunkId
    return some { record, root, manifests }
  else return none

/-- The newest record whose graph verifies; damage moves on to the one before. -/
def selectCandidate (read : MetadataReader ObjectId) (verify : ChunkVerifier ObjectId) :
    List (CommitRecord ObjectId) →
    Except (GenerationError ObjectId) (Option (SelectedGraph ObjectId))
  | [] => .ok none
  | record :: older =>
    match verifyCandidate read verify record with
    | .ok (some selected) => .ok (some selected)
    | .ok none => selectCandidate read verify older
    | .error error =>
      if error.allowsGenerationFallback then selectCandidate read verify older
      else .error error

def selectLiveRecoveryGraph (read : MetadataReader ObjectId) (verify : ChunkVerifier ObjectId)
    (structurallyValidRecords : List (CommitRecord ObjectId)) (oldestOnlineGeneration : ℕ) :
    Except (GenerationError ObjectId) (Option (SelectedGraph ObjectId)) :=
  selectCandidate read verify (structurallyValidRecords.reverse.takeWhile fun record =>
    record.generation ≥ oldestOnlineGeneration)

/-- What recovery hands to the mount. -/
structure RecoveredGraph (ObjectId : Type) where
  record : CommitRecord ObjectId
  namespaceRoot : NamespaceRoot ObjectId
  walTail : LogTail
  rejectedNewerGenerations : ℕ
  inodeReservationEndHighWater : ℕ
  manifests : VerifiedManifests ObjectId

/-- Recovery as a whole, from what the log loaded. -/
def recoverLatestChecked (supportedPolicy : PolicySetId)
    (loaded : Except GenerationLogError (Option LogSnapshot))
    (read : MetadataReader MetadataObjectId) (verify : ChunkVerifier MetadataObjectId) :
    Except (GenerationError MetadataObjectId) (Option (RecoveredGraph MetadataObjectId)) := do
  match ← loaded.mapError mapLogError with
  | none => return none
  | some snapshot =>
    match snapshot.records.getLast? with
    | none => .error .noRecoverableGeneration
    | some latest => do
        let structurallyValidRecords ←
          validateRecoveryTransitionPrefix supportedPolicy read snapshot.records
        match ← selectLiveRecoveryGraph read verify structurallyValidRecords
          (latest.generation - 1) with
        | none => .error .noRecoverableGeneration
        | some selected =>
          return some {
            record := selected.record
            namespaceRoot := selected.root
            walTail := snapshot.tail
            rejectedNewerGenerations := latest.generation - selected.record.generation
            inodeReservationEndHighWater :=
              (snapshot.records.map fun record => record.inodeReservationEnd).foldl max 0
            manifests := selected.manifests }

variable {record : CommitRecord ObjectId} {root : NamespaceRoot ObjectId}
  {snapshot selected : LogSnapshot} {values : List ℕ} {supportedPolicy : PolicySetId}

/-- The root may follow what was accepted before it. The very first generation is empty. -/
def MayFollow (previous : Option (Generation ObjectId)) (record : CommitRecord ObjectId)
    (root : NamespaceRoot ObjectId) : Prop :=
  match previous with
  | some before => RootAdvances before root
  | none => record.generation = 1 → root.inodeAllocationCursor = 2 ∧ root.inodes = []

theorem acceptsTransition_iff {previous : Option (Generation ObjectId)} :
    acceptsTransition previous record root = true ↔ MayFollow previous record root := by
  cases previous with
  | none => simp [acceptsTransition, MayFollow, imp_iff_not_or]
  | some before =>
    simp only [acceptsTransition, MayFollow, ← verifyGenerationTransitionPair_ok]
    cases verifyGenerationTransitionPair before.1 before.2 root with
    | error error | ok done => simp [Except.toBool]

/-- Every record has a root that agrees with it and follows from the root before. -/
inductive Accepted (read : MetadataReader ObjectId) :
    Option (Generation ObjectId) → List (CommitRecord ObjectId) → Prop where
  | nil {previous : Option (Generation ObjectId)} : Accepted read previous []
  | cons {previous : Option (Generation ObjectId)} {record : CommitRecord ObjectId}
      {root : NamespaceRoot ObjectId} {rest : List (CommitRecord ObjectId)}
      (rootOf : RootOf read record root)
      (follows : MayFollow previous record root)
      (later : Accepted read (some (record, root)) rest) : Accepted read previous (record :: rest)

section Accepting

variable {read : MetadataReader ObjectId}
  {previous : Option (Generation ObjectId)} {records accepted : List (CommitRecord ObjectId)}

theorem accepted_cons_iff (readable : readNamespaceRoot read record.namespaceRoot = .ok root) :
    Accepted read previous (record :: records) ↔
      (recordMatchesNamespaceRoot record root && acceptsTransition previous record root) = true ∧
        Accepted read (some (record, root)) records := by
  rw [Bool.and_eq_true, acceptsTransition_iff]
  constructor
  · intro holds
    rcases holds with _ | ⟨rootOf, follows, later⟩
    rename_i root'
    have same : root' = root := by
      have both := (rootOf_iff.mp rootOf).1.symm.trans readable
      rwa [Except.ok.injEq] at both
    rw [same] at rootOf follows later
    exact ⟨⟨(rootOf_iff.mp rootOf).2, follows⟩, later⟩
  · intro holds
    exact Accepted.cons (rootOf_iff.mpr ⟨readable, holds.1.1⟩) holds.1.2 holds.2

theorem Accepted.of_append {front back : List (CommitRecord ObjectId)}
    (holds : Accepted read previous (front ++ back)) : Accepted read previous front := by
  induction front generalizing previous with
  | nil => exact Accepted.nil
  | cons record rest ih =>
    rcases holds with _ | ⟨rootOf, follows, later⟩
    exact Accepted.cons rootOf follows (ih later)

theorem acceptRecords_spec (ran : acceptRecords read previous records = .ok accepted) :
    ∃ rest, records = accepted ++ rest ∧ Accepted read previous accepted ∧
      ∀ next later, rest = next :: later → ¬ Accepted read previous (accepted ++ [next]) := by
  induction records generalizing previous accepted with
  | nil =>
    cases ran
    exact ⟨[], rfl, Accepted.nil, by simp⟩
  | cons record rest ih =>
    rw [acceptRecords] at ran
    cases readable : readNamespaceRoot read record.namespaceRoot with
    | error error =>
      simp only [readable] at ran
      split at ran
      · cases ran
        refine ⟨record :: rest, rfl, Accepted.nil, ?_⟩
        intro next later same holds
        cases same
        rcases holds with _ | ⟨rootOf, _, _⟩
        have both := (rootOf_iff.mp rootOf).1.symm.trans readable
        cases both
      · cases ran
    | ok root =>
      simp only [readable] at ran
      split at ran
      · rename_i taken
        simp only [bind_ok, pure_ok] at ran
        rcases ran with ⟨others, scanned, rfl⟩
        rcases ih scanned with ⟨remaining, rfl, holds, maximal⟩
        refine ⟨remaining, rfl, (accepted_cons_iff readable).mpr ⟨taken, holds⟩, ?_⟩
        intro next later same longer
        exact maximal next later same ((accepted_cons_iff readable).mp longer).2
      · rename_i refused
        cases ran
        refine ⟨record :: rest, rfl, Accepted.nil, ?_⟩
        intro next later same holds
        cases same
        exact refused ((accepted_cons_iff readable).mp holds).1

end Accepting

/-- A complete graph: its root and the Manifests of all its files are stored, and the owner accepts
the Chunks that these name. -/
structure Verifies (read : MetadataReader ObjectId) (verify : ChunkVerifier ObjectId)
    (selected : SelectedGraph ObjectId) : Prop where
  rootOf : RootOf read selected.record selected.root
  graph : ∃ required, StoredGraph read selected.root selected.manifests required ∧
    verify required = .ok ()

/-- A candidate that recovery may return: all records up to it are accepted, and it verifies. -/
structure Recoverable (read : MetadataReader ObjectId) (verify : ChunkVerifier ObjectId)
    (before : List (CommitRecord ObjectId)) (selected : SelectedGraph ObjectId) : Prop where
  accepted : Accepted read none (before ++ [selected.record])
  verifies : Verifies read verify selected

section Selecting

variable {read : MetadataReader ObjectId} {verify : ChunkVerifier ObjectId}
  {selected : SelectedGraph ObjectId}

theorem verifyCandidate_eq_some_iff : verifyCandidate read verify record = .ok (some selected) ↔
      selected.record = record ∧ Verifies read verify selected := by
  simp only [verifyCandidate, bind_ok]
  constructor
  · intro verified
    rcases verified with ⟨root, readable, verified⟩
    split at verified
    · rename_i matching
      simp only [bind_ok, pure_ok] at verified
      rcases verified with ⟨⟨manifests, required⟩, scanned, _, checked, ran⟩
      cases ran
      have stored := scanManifestGraphWithRequired_ok.mp ⟨required, scanned, rfl⟩
      exact ⟨rfl, rootOf_iff.mpr ⟨readable, matching⟩, _, stored, checked⟩
    · cases verified
  · intro verified
    rcases verified with ⟨rfl, rootOf, required, stored, checked⟩
    rcases rootOf_iff.mp rootOf with ⟨readable, matching⟩
    rcases scanManifestGraphWithRequired_ok.mpr stored with ⟨lengths, scanned, rfl⟩
    refine ⟨selected.root, readable, ?_⟩
    rw [if_pos matching]
    simp only [bind_ok, pure_ok]
    exact ⟨_, scanned, (), checked, rfl⟩

theorem selectCandidate_spec {candidates : List (CommitRecord ObjectId)}
    (ran : selectCandidate read verify candidates = .ok (some selected)) :
    ∃ newer older, candidates = newer ++ selected.record :: older ∧ Verifies read verify selected ∧
      ∀ other ∈ newer, ∀ graph, graph.record = other → ¬ Verifies read verify graph := by
  induction candidates with
  | nil => cases ran
  | cons record older ih =>
    have skipped : (∀ graph, verifyCandidate read verify record ≠ .ok (some graph)) →
        selectCandidate read verify older = .ok (some selected) →
        ∃ newer rest, record :: older = newer ++ selected.record :: rest ∧
          Verifies read verify selected ∧
          ∀ other ∈ newer, ∀ graph, graph.record = other → ¬ Verifies read verify graph := by
      intro refused found
      rcases ih found with ⟨newer, rest, split, verifies, refusedNewer⟩
      refine ⟨record :: newer, rest, by rw [split]; rfl, verifies, ?_⟩
      intro other mem graph same holds
      rcases mem_cons.mp mem with rfl | later
      · exact refused graph (verifyCandidate_eq_some_iff.mpr ⟨same, holds⟩)
      · exact refusedNewer other later graph same holds
    rw [selectCandidate] at ran
    cases candidate : verifyCandidate read verify record with
    | error error =>
      simp only [candidate] at ran
      split at ran
      · exact skipped (by rw [candidate]; simp) ran
      · cases ran
    | ok result =>
      simp only [candidate] at ran
      cases result with
      | none => exact skipped (by rw [candidate]; simp) ran
      | some graph =>
        cases ran
        rcases verifyCandidate_eq_some_iff.mp candidate with ⟨same, verifies⟩
        exact ⟨[], older, by rw [same]; rfl, verifies, by simp⟩

theorem reverse_takeWhile_split {α : Type} {items newer older : List α} {item : α}
    {keep : α → Bool} (split : items.reverse.takeWhile keep = newer ++ item :: older) :
    ∃ before, items = before ++ item :: newer.reverse := by
  have whole : items.reverse.takeWhile keep ++ items.reverse.dropWhile keep = items.reverse :=
    takeWhile_append_dropWhile
  rw [split] at whole
  have reversed := congrArg List.reverse whole
  refine ⟨(items.reverse.dropWhile keep).reverse ++ older.reverse, ?_⟩
  simpa using reversed.symm

theorem selectLiveRecoveryGraph_spec {records accepted : List (CommitRecord ObjectId)} {oldest : ℕ}
    (scanned : acceptRecords read none records = .ok accepted)
    (ran : selectLiveRecoveryGraph read verify accepted oldest = .ok (some selected)) :
    ∃ before after, records = before ++ selected.record :: after ∧
      oldest ≤ selected.record.generation ∧ Recoverable read verify before selected ∧
      ∀ between later graph, after = between ++ graph.record :: later →
        ¬ Recoverable read verify (before ++ selected.record :: between) graph := by
  rcases acceptRecords_spec scanned with ⟨rest, rfl, holds, maximal⟩
  rcases selectCandidate_spec ran with ⟨newer, older, split, verifies, refused⟩
  have inRange : oldest ≤ selected.record.generation := by
    have mem : selected.record ∈ accepted.reverse.takeWhile fun record =>
        record.generation ≥ oldest := by
      rw [split]
      simp
    simpa using mem_takeWhile_imp mem
  rcases reverse_takeWhile_split split with ⟨before, arranged⟩
  refine ⟨before, newer.reverse ++ rest, by simp [arranged], inRange, ⟨?_, verifies⟩, ?_⟩
  · rw [arranged, append_cons] at holds
    exact holds.of_append
  · intro between later graph after recoverable
    -- A record behind the accepted prefix, or one that was tried and refused.
    have unaccepted : ∀ extra, between = newer.reverse ++ extra →
        rest = extra ++ graph.record :: later → False := by
      rintro extra rfl behind
      have longer := recoverable.accepted
      rw [append_assoc, cons_append, append_assoc, ← cons_append,
        ← append_assoc, ← arranged] at longer
      cases extra with
      | nil => exact maximal graph.record later behind longer
      | cons next others =>
        rw [cons_append, append_cons] at longer
        exact maximal next _ behind longer.of_append
    rcases append_eq_append_iff.mp after with ⟨extra, inside, behind⟩ | ⟨extra, inside, behind⟩
    · exact unaccepted extra inside behind
    · cases extra with
      | nil =>
        rw [append_nil] at inside
        exact unaccepted [] (by rw [inside, append_nil]) behind.symm
      | cons next others =>
        rw [cons_append, List.cons.injEq] at behind
        have tried : graph.record ∈ newer := by
          rw [← mem_reverse, inside, behind.1]
          simp
        exact refused graph.record tried graph rfl recoverable.verifies

end Selecting

section Loading

variable {digests : Digests}

/-- Generations without a gap. -/
def Consecutive (left right : LogRecord) : Prop :=
  left.generation + 1 = right.generation

theorem decodeRecords_consecutive {slot : Fin 2} {bytes : Bytes} {count offset : ℕ}
    {records : List LogRecord} {previous : Option (LogRecord × CommitRecordHash)}
    (chained : records.IsChain Consecutive) (last : records.getLast? = previous.map Prod.fst)
    (decoded : decodeRecords digests slot bytes count offset records previous = .ok snapshot) :
    snapshot.records.IsChain Consecutive := by
  induction count generalizing offset records previous with
  | zero =>
    cases decoded
    exact chained
  | succ count ih =>
    rw [decodeRecords] at decoded
    cases image : CommitRecord.decode digests (bytes.slice offset COMMIT_RECORD_BYTES) with
    | error error =>
      simp only [image] at decoded
      cases decoded
      exact chained
    | ok record =>
      simp only [image] at decoded
      have extended : (∀ before ∈ records.getLast?, Consecutive before record) →
          (records ++ [record]).IsChain Consecutive := by
        intro follows
        apply isChain_append.mpr
        refine ⟨chained, isChain_singleton record, ?_⟩
        intro before isLast next isNext
        rw [head?_cons, mem_some_iff] at isNext
        rw [← isNext]
        exact follows before isLast
      have newLast : ∀ hash : CommitRecordHash,
          (records ++ [record]).getLast? = (some (record, hash)).map Prod.fst := by simp
      cases previous with
      | none =>
        refine ih (extended ?_) (newLast _) decoded
        rw [last]
        simp
      | some pair =>
        simp only at decoded
        split at decoded
        · cases decoded
        · split at decoded
          · cases decoded
            exact chained
          · rename_i follows
            refine ih (extended ?_) (newLast _) decoded
            rw [last]
            intro found same
            rw [map_some, mem_some_iff] at same
            rw [← same]
            simp only [not_or, not_not] at follows
            exact follows.1.symm

theorem selectPair_mem {left right : LogSnapshot} {leftLast rightLast : LogRecord}
    (ran : selectPair left right leftLast rightLast = .ok (some selected)) :
    selected = left ∨ selected = right := by
  unfold selectPair at ran
  split at ran
  · split at ran
    · cases ran
    · split at ran
      · cases ran
        split <;> simp
      · split at ran
        · cases ran
        · cases ran
          split <;> simp
  · simp only at ran
    split at ran
    · split at ran
      · cases ran
      · cases ran
        exact .inr rfl
    · split at ran
      · cases ran
      · cases ran
        exact .inl rfl

theorem selectCurrent_mem {segments : List LogSnapshot}
    (ran : selectCurrent segments = .ok (some selected)) :
    selected ∈ segments ∧ selected.records ≠ [] := by
  unfold selectCurrent at ran
  split at ran
  · cases ran
  · have chosen : ∀ segment, segment ∈ segments.filter (fun segment => !segment.records.isEmpty) →
        segment ∈ segments ∧ segment.records ≠ [] := by
      intro segment mem
      simpa using mem
    split at ran
    · cases ran
    · rename_i segment filtered
      cases ran
      exact chosen _ (by rw [filtered]; simp)
    · rename_i left right others filtered
      split at ran
      · rcases selectPair_mem ran with rfl | rfl
        · exact chosen _ (by rw [filtered]; simp)
        · exact chosen _ (by rw [filtered]; simp)
      · cases ran

/-- Whatever the slots hold, the loaded records are nonempty and have no gap. -/
theorem loadResult_consecutive {objects : Objects String}
    (loaded : loadResult digests objects = .ok (some snapshot)) :
    snapshot.records ≠ [] ∧ snapshot.records.IsChain Consecutive := by
  have decoded : ∀ slot segments, slotSegments digests slot objects = .ok segments →
      ∀ segment ∈ segments, segment.records.IsChain Consecutive := by
    intro slot segments read segment mem
    unfold slotSegments at read
    split at read
    · cases read
      cases mem
    · split at read
      · cases read
      · rw [map_ok] at read
        rcases read with ⟨found, decodes, rfl⟩
        rw [mem_singleton] at mem
        rw [mem]
        exact decodeRecords_consecutive isChain_nil rfl decodes
  simp only [loadResult, bind_ok] at loaded
  rcases loaded with ⟨first, readFirst, second, readSecond, selected⟩
  rcases selectCurrent_mem selected with ⟨mem, nonempty⟩
  refine ⟨nonempty, ?_⟩
  rcases mem_append.mp mem with inFirst | inSecond
  · exact decoded 0 first readFirst snapshot inFirst
  · exact decoded 1 second readSecond snapshot inSecond

end Loading

theorem le_foldl_max {start : ℕ} :
    start ≤ values.foldl max start ∧ ∀ value ∈ values, value ≤ values.foldl max start := by
  induction values generalizing start with
  | nil => simp
  | cons value rest ih =>
    have bounds := @ih (max start value)
    simp only [foldl_cons, mem_cons, forall_eq_or_imp]
    exact ⟨by omega, by omega, bounds.2⟩

theorem foldl_max_mem {start : ℕ} :
    values.foldl max start = start ∨ values.foldl max start ∈ values := by
  induction values generalizing start with
  | nil => exact .inl rfl
  | cons value rest ih =>
    rw [foldl_cons, mem_cons]
    rcases @ih (max start value) with same | mem
    · omega
    · exact .inr (.inr mem)

variable {loaded : Except GenerationLogError (Option LogSnapshot)}
  {verify : ChunkVerifier MetadataObjectId} {read : MetadataReader MetadataObjectId}

theorem recoverLatestChecked_eq_some {graph : RecoveredGraph MetadataObjectId}
    (recovered : recoverLatestChecked supportedPolicy loaded read verify = .ok (some graph)) :
    ∃ snapshot latest accepted, loaded = .ok (some snapshot) ∧
      snapshot.records.getLast? = some latest ∧
      acceptRecords read none snapshot.records = .ok accepted ∧
      selectLiveRecoveryGraph read verify accepted (latest.generation - 1) =
        .ok (some ⟨graph.record, graph.namespaceRoot, graph.manifests⟩) ∧
      graph.walTail = snapshot.tail ∧
      graph.rejectedNewerGenerations = latest.generation - graph.record.generation ∧
      graph.inodeReservationEndHighWater =
        (snapshot.records.map fun record => record.inodeReservationEnd).foldl max 0 := by
  simp only [recoverLatestChecked, bind_ok, mapError_ok] at recovered
  rcases recovered with ⟨found, loads, recovered⟩
  cases found with
  | none => cases recovered
  | some snapshot =>
    cases isLast : snapshot.records.getLast? with
    | none =>
      simp only [isLast] at recovered
      cases recovered
    | some latest =>
      simp only [isLast, bind_ok, validateRecoveryTransitionPrefix] at recovered
      rcases recovered with ⟨accepted, ⟨_, _, scanned⟩, result, selects, recovered⟩
      cases result with
      | none => cases recovered
      | some selected =>
        cases recovered
        exact ⟨snapshot, latest, accepted, loads, isLast, scanned, selects, rfl, rfl, rfl⟩

theorem recoverLatestChecked_eq_none_iff :
    recoverLatestChecked supportedPolicy loaded read verify = .ok none ↔ loaded = .ok none := by
  constructor
  · intro recovered
    simp only [recoverLatestChecked, bind_ok, mapError_ok] at recovered
    rcases recovered with ⟨found, loads, recovered⟩
    cases found with
    | none => exact loads
    | some snapshot =>
      simp only at recovered
      split at recovered
      · cases recovered
      · simp only [bind_ok] at recovered
        rcases recovered with ⟨accepted, _, result, _, recovered⟩
        cases result with
        | none => cases recovered
        | some selected => cases recovered
  · intro empty
    rw [empty]
    rfl

section Sample

def objectNamed (index : Fin 16) : MetadataObjectId :=
  ⟨⟨List.replicate 32 (UInt8.ofNat (index + 1)), by simp⟩, by revert index; decide⟩

def sampleChunk : ChunkId :=
  ⟨List.replicate 32 7, rfl⟩

/-- Every generation but the first shows one file, and each time another one. -/
def sampleFiles (index : Fin 4) : List (DurableInode MetadataObjectId) :=
  if index = 0 then [] else
    [{ inode := index + 1, kind := .regular, mode := 0o644, uid := 0, gid := 0, linkCount := 1,
       mutationSequence := index, logicalSize := 8,
       manifestRoot := some (objectNamed ⟨index + 12, by omega⟩), fileFlags := 0, xattrs := [],
       times := ⟨⟨0, 0⟩, ⟨0, 0⟩, ⟨0, 0⟩⟩, symlinkTarget := none, regular := by simp }]

def sampleEntries (index : Fin 4) : List NamespaceEntry :=
  (sampleFiles index).map fun inode => ⟨ROOT_INODE, inode.inode, [0x61]⟩

/-- The root of each of the four generations. -/
def sampleRoot (index : Fin 4) : NamespaceRoot MetadataObjectId where
  inodeReservationEnd := 8
  inodeAllocationCursor := index + 2
  namespaceMutationSequence := index
  rootMetadata :=
    { mode := 0o755, uid := 0, gid := 0, fileFlags := 0, xattrs := [],
      times := ⟨⟨0, 0⟩, ⟨0, 0⟩, ⟨0, 0⟩⟩ }
  inodes := sampleFiles index
  entries := sampleEntries index
  validated := by revert index; decide

def sampleDescriptor (index : Fin 4) : NamespaceGraphRoot MetadataObjectId where
  inodeReservationEnd := 8
  inodeAllocationCursor := index + 2
  namespaceMutationSequence := index
  inodeCount := (sampleFiles index).length
  entryCount := (sampleEntries index).length
  rootMetadata := (sampleRoot index).rootMetadata
  shards := (sampleFiles index).flatMap fun inode =>
    [⟨.inode, 1, inode.inode, 0, objectNamed ⟨index + 4, by omega⟩⟩,
      ⟨.entry, 1, ROOT_INODE, 1, objectNamed ⟨index + 8, by omega⟩⟩]

/-- Four bytes of data and a hole. -/
def sampleLeaf : ManifestLeaf where
  fileLength := 8
  extents := [.data 4 sampleChunk, .hole 4]
  partition := validatePartition_ok.mp (show validatePartition _ _ = .ok () by decide)
  fits := by decide

/-- Four generations with their shards. The Manifest of the last one was never stored. -/
def sampleObjects : List (MetadataObjectId × MetadataObject MetadataObjectId) :=
  ((List.finRange 4).flatMap fun index : Fin 4 =>
    [(objectNamed ⟨index, by omega⟩, .namespaceRoot (sampleDescriptor index)),
      (objectNamed ⟨index + 4, by omega⟩, .inodeShard (sampleFiles index)),
      (objectNamed ⟨index + 8, by omega⟩, .entryShard (sampleEntries index))]) ++
    [(objectNamed 13, .manifest (.leaf sampleLeaf)), (objectNamed 14, .manifest (.leaf sampleLeaf))]

def sampleStore : MetadataReader MetadataObjectId := fun objectId =>
  (sampleObjects.lookup objectId).elim (.error (.io .notFound)) .ok

def sampleCommit (index : Fin 4) : LogRecord where
  generation := index + 1
  previousRecordHash := ⟨Bytes.leEncode 32 index, by simp⟩
  namespaceRoot := objectNamed ⟨index, by omega⟩
  policySet := sampleId
  namespaceMutationCutoff := index
  inodeReservationEnd := 8
  inodeAllocationCursor := index + 2
  formatEpoch := CURRENT_REPOSITORY_FORMAT_EPOCH
  widths := ⟨by simp only; omega, by simp only; omega, by simp, by simp only; omega, rfl⟩
  chainStart := by revert index; decide
  reservation := by simp
  allocation := by omega

def sampleLog : List LogRecord := (List.finRange 4).map sampleCommit

def sampleSlots : Objects String := fun name =>
  if name = SLOT_NAMES 0 then some (encodeAll sampleDigests sampleLog) else none

theorem sampleCommit_succeeds {index next : Fin 4} (following : index.val + 1 = next.val) :
    Succeeds sampleDigests (sampleCommit index) (sampleCommit next) where
  generation := by simp [sampleCommit, following]
  hash := by
    rw [sampleDigests_hash]
    simp [sampleCommit, following]
  cutoff := by simp only [sampleCommit]; omega
  reservation := le_refl 8
  cursor := by simp only [sampleCommit]; omega

theorem load_sampleSlots :
    loadResult sampleDigests sampleSlots = .ok (some (segment sampleDigests 0 sampleLog [])) := by
  have order : (List.finRange 4).IsChain fun index next => index.val + 1 = next.val := by decide
  have chained : Chained sampleDigests sampleLog :=
    isChain_map_of_isChain sampleCommit (fun _ _ => sampleCommit_succeeds) order
  have stored : Stores sampleDigests (sampleSlots (SLOT_NAMES 0)) sampleLog [] :=
    ⟨by simp [sampleSlots], chained, by decide, by decide, fun _ => rfl⟩
  exact loaded_of_shape (.single stored (by decide) (.inl (by decide)))

/-- Accepts a graph that needs the sample Chunk in its whole length and no other one. -/
def verifySample : ChunkVerifier MetadataObjectId := fun required =>
  if required sampleChunk = some 4 then .ok ()
  else .error (.store (.missingVerifiedChunk sampleChunk 4))

/-- The newest generation shows a file without its Manifest, so that the one before it is found. -/
theorem recover_sample : ∃ graph, recoverLatestChecked sampleId
      (loadResult sampleDigests sampleSlots) sampleStore verifySample = .ok (some graph) ∧
    graph.record = sampleCommit 2 ∧ graph.manifests = [(3, ⟨objectNamed 14, 8, 4⟩)] := by
  have recovered : ((recoverLatestChecked sampleId
      (.ok (some (segment sampleDigests 0 sampleLog []))) sampleStore
      verifySample).toOption.join.map
        fun graph => decide (graph.record = sampleCommit 2 ∧
          graph.manifests = [(3, ⟨objectNamed 14, 8, 4⟩)])) = some true := by decide +kernel
  rw [← load_sampleSlots] at recovered
  rcases Option.map_eq_some_iff.mp recovered with ⟨graph, joined, holds⟩
  refine ⟨graph, ?_, of_decide_eq_true holds⟩
  cases returned : recoverLatestChecked sampleId (loadResult sampleDigests sampleSlots)
      sampleStore verifySample with
  | error => simp [returned, Except.toOption] at joined
  | ok found =>
    rw [returned] at joined
    exact congrArg _ joined

end Sample

end Fastdup.Store
