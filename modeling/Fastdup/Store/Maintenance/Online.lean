import Fastdup.Store.Maintenance.Collect

/-!
# Online retirement

An online collection proves a shortlist of candidates against the pinned Exact generation instead
of the whole pool. A Chunk of a candidate is required when it is protected, or when a stored
dependent Record names it: one that the Exact Index shows, also as RETIRING, or one that the
startup scrub pinned because the index does not show it. Every required Chunk of an accepted
victim is written again as an independent copy, whatever other copies there are.
-/

namespace Fastdup.Store.Maintenance

open Library Checked Format List AList SealedContainer Coverage

def GC_CANDIDATE_PROOF_MAX_VICTIMS : ℕ := 4096
def GC_CANDIDATE_PROOF_MAX_CHUNK_IDS : ℕ := 262144
def GC_CANDIDATE_PROOF_MAX_PROJECTION_CHUNK_IDS : ℕ := 524288
def GC_CANDIDATE_PROOF_MAX_RAW_REPLACEMENT_BYTES : ℕ := 64 * 1024 * 1024

/-- The states of a Container in the location index. -/
inductive ExactLocationTransition where
  | active
  | retiring
  | quarantined
  | removed
  deriving DecidableEq, Repr

/-- The effective entry of one Location. -/
structure ExactIndexEntry where
  chunkId : ChunkId
  logicalLength : ℕ
  containerId : ContainerId
  dependency : Option ChunkId
  transition : ExactLocationTransition
  deriving DecidableEq

/-- A candidate as the catalog of candidates lists it. -/
structure GcCandidateCatalogRow where
  containerId : ContainerId
  containerGeneration : ℕ
  physicalBytes : ℕ
  deriving DecidableEq

/-- What a proof reads beside the pool: the pinned Exact generation, the Chunks of the protected
Commits, pinned roots and checkpoints, and the Bases pinned by the startup scrub. -/
structure OnlineView where
  exact : Option (List ExactIndexEntry)
  exactProfileMatches : Bool
  protectedChunks : OnlineChunks
  dependentBasePins : List ChunkId

/-- The rows that still have a Container, and the Chunks of these. -/
structure CandidateChunks where
  rows : List GcCandidateCatalogRow
  chunkIds : List ChunkId

def visitCandidateChunk (row : GcCandidateCatalogRow) (found : CandidateChunks)
    (chunk : ChunkCopy) : Except MaintenanceError CandidateChunks :=
  let rows :=
    if found.rows.getLast?.all (fun previous => decide (previous.containerId ≠ row.containerId))
      then
      found.rows ++ [row]
    else found.rows
  if chunk.1 ∈ found.chunkIds then .ok { found with rows }
  else if GC_CANDIDATE_PROOF_MAX_CHUNK_IDS ≤ found.chunkIds.length then
    .error .candidateChunkLimitExceeded
  else .ok { rows, chunkIds := found.chunkIds ++ [chunk.1] }

/-- The Chunks of a candidate, within the budget of the proof. -/
def visitCandidate (pool : Pool) (found : CandidateChunks) (row : GcCandidateCatalogRow) :
    Except MaintenanceError CandidateChunks :=
  match pool.find? (fun container => decide (container.containerId = row.containerId)) with
  | none => .ok found
  | some container => do
      require (container.containerGeneration ≠ row.containerGeneration ∨
        container.fileLength ≠ row.physicalBytes) .publishedIdentityMismatch
      container.chunks.foldlM (visitCandidateChunk row) found

/-- Halves the shortlist until its Chunks fit the proof budget. -/
def collectBoundedCandidateChunks (pool : Pool) (rows : List GcCandidateCatalogRow)
    (selectedCount : ℕ) : Except MaintenanceError CandidateChunks :=
  match (rows.take selectedCount).foldlM (visitCandidate pool) ⟨[], []⟩ with
  | .ok found => .ok found
  | .error .candidateChunkLimitExceeded =>
    if 1 < selectedCount then collectBoundedCandidateChunks pool rows ((selectedCount + 1) / 2)
    else .error .gcCandidateProofBudgetExceeded
  | .error error => .error error
  termination_by selectedCount

/-- Whether the entry is visited for the candidates. -/
def ExactIndexEntry.Matches (candidates : List ChunkId) (entry : ExactIndexEntry) : Prop :=
  entry.transition ≠ .removed ∧
    (entry.chunkId ∈ candidates ∨ ∃ base ∈ entry.dependency, base ∈ candidates)

instance (candidates : List ChunkId) (entry : ExactIndexEntry) :
    Decidable (entry.Matches candidates) :=
  inferInstanceAs (Decidable (_ ∧ _))

/-- Adds the targets that depend on a candidate. -/
def projectDependent (candidates : List ChunkId) (projection : List ChunkId)
    (entry : ExactIndexEntry) : Except MaintenanceError (List ChunkId) :=
  if ¬ (entry.Matches candidates ∧ entry.transition = .active ∧
      ∃ base ∈ entry.dependency, base ∈ candidates) then .ok projection
  else if entry.chunkId ∈ projection then .ok projection
  else if GC_CANDIDATE_PROOF_MAX_PROJECTION_CHUNK_IDS ≤ projection.length then
    .error .gcCandidateProofBudgetExceeded
  else .ok (projection ++ [entry.chunkId])

/-- The candidates that a stored dependent Record names. -/
def dependentBases (candidates : List ChunkId) (entries : List ExactIndexEntry)
    (pins : List ChunkId) : List ChunkId :=
  pins.filter (fun base => decide (base ∈ candidates)) ++
    (entries.filter fun entry => decide (entry.Matches candidates)).flatMap fun entry =>
      entry.dependency.toList.filter fun base => decide (base ∈ candidates)

/-- The protected Chunks that an ACTIVE Location covers. -/
def requireActive (candidates : List ChunkId) (protectedChunks : OnlineChunks) (required : Coverage)
    (entry : ExactIndexEntry) : Except MaintenanceError Coverage :=
  if ¬ (entry.Matches candidates ∧ entry.transition = .active) then .ok required
  else
    match protectedChunks entry.chunkId with
    | none => .ok required
    | some expected =>
      if entry.logicalLength ≠ expected then
        .error (.chunkLengthMismatch entry.chunkId expected entry.logicalLength)
      else .ok (required.insert entry.chunkId entry.logicalLength)

/-- A protected Chunk must have a live location. -/
def requireCovered (protectedChunks : OnlineChunks) (required : Coverage) (chunk : ChunkId) :
    Except MaintenanceError Unit :=
  match protectedChunks chunk with
  | none => .ok ()
  | some expected =>
    require (required.lookup chunk ≠ some expected) (.missingLiveExactLocation chunk)

/-- What the stored records and the live Chunks still need. -/
structure ReverseDependencyGeneration where
  requiredChunks : Coverage
  storedDependentBases : List ChunkId

/-- An upper bound for what the copy of a Chunk takes. -/
def estimatedRelocatedChunkBytes (record : EncodingRecord) (logicalLength : ℕ) :
    Except MaintenanceError ℕ := do
  let rawBound ← checkedAdd .arithmeticOverflow logicalLength
    GC_RAW_CHUNK_PHYSICAL_OVERHEAD_UPPER_BYTES
  if ¬ record.codec.Independent then pure rawBound
  else
    let decoded := max (record.chunks.map Prod.snd).sum 1
    let share := min (record.recordLength * logicalLength) (2 ^ 64 - 1) / decoded
    pure (max (min share rawBound) 1)

/-- The bound for all copies, with the Containers that hold them. -/
def boundedReplacementEstimate (estimatedChunkBytes chunkCount : ℕ) : Except MaintenanceError ℕ :=
    do
  let containerCount := max
    ((estimatedChunkBytes + (GC_REPLACEMENT_LOGICAL_TARGET_BYTES - 1)) /
      GC_REPLACEMENT_LOGICAL_TARGET_BYTES) (if chunkCount ≠ 0 then 1 else 0)
  let fixed ← checkedMul containerCount GC_CONTAINER_FIXED_PHYSICAL_OVERHEAD_UPPER_BYTES
  checkedAdd .arithmeticOverflow estimatedChunkBytes fixed

/-- The claims of the victims so far, with what one more Container adds to them. -/
structure VictimClaims where
  replacementChunks : Coverage
  newlyRequired : List ChunkId
  items : List GcReplacementItem
  estimate : ℕ

/-- The scan of one Record: the claims so far, whether all its Chunks were claimed here, and the
estimated size of those that were. -/
structure GroupClaims where
  replacementChunks : Coverage
  newlyRequired : List ChunkId
  fullLive : Bool
  estimated : ℕ

section Proving

variable (reverse : ReverseDependencyGeneration)

/-- Whether a Chunk of a victim is still needed. -/
def requiredHere (chunk : ChunkCopy) : Except MaintenanceError Bool :=
  match reverse.requiredChunks.lookup chunk.1 with
  | some expected =>
    if expected ≠ chunk.2 then .error (.onlineChunkLengthMismatch chunk.1 expected chunk.2)
    else .ok true
  | none => .ok (decide (chunk.1 ∈ reverse.storedDependentBases))

/-- A required Chunk is claimed by the first Record that holds it. -/
def claimHere (record : EncodingRecord) (claims : GroupClaims) (chunk : ChunkCopy)
    (required : Bool) : Except MaintenanceError GroupClaims :=
  if required then
    if chunk.1 ∈ claims.replacementChunks then
      .ok { claims with
              replacementChunks := claims.replacementChunks.insert chunk.1 chunk.2, fullLive :=
                false }
    else do
      let bytes ← estimatedRelocatedChunkBytes record chunk.2
      let estimated ← checkedAdd .arithmeticOverflow claims.estimated bytes
      pure { claims with
              replacementChunks := claims.replacementChunks.insert chunk.1 chunk.2,
              newlyRequired := claims.newlyRequired ++ [chunk.1], estimated }
  else .ok { claims with fullLive := false }

def claimChunkHere (record : EncodingRecord) (claims : GroupClaims) (chunk : ChunkCopy) :
    Except MaintenanceError GroupClaims := do
  let required ← requiredHere reverse chunk
  claimHere record claims chunk required

/-- A Record that is needed as a whole is moved as it stands. -/
def claimRecord (claims : VictimClaims) (record : EncodingRecord) :
    Except MaintenanceError VictimClaims := do
  let group ← record.chunks.foldlM (claimChunkHere reverse record)
    ⟨claims.replacementChunks, claims.newlyRequired, true, 0⟩
  if group.fullLive ∧ record.chunks.length ≤ GC_REPLACEMENT_CHUNK_LIMIT ∧
      record.codec.Independent then do
    let estimate ← checkedAdd .arithmeticOverflow claims.estimate
      (max group.estimated record.recordLength)
    pure { replacementChunks := group.replacementChunks, newlyRequired := group.newlyRequired,
           items := claims.items ++ [.transplanted record], estimate }
  else do
    let estimate ← checkedAdd .arithmeticOverflow claims.estimate group.estimated
    pure { replacementChunks := group.replacementChunks, newlyRequired := group.newlyRequired,
           items := claims.items ++
             (record.chunks.filter fun chunk => decide (chunk.1 ∈ group.newlyRequired)).map .chunk,
           estimate }

/-- The pass over the shortlist. -/
structure Proving where
  victims : List SealedContainer
  replacementChunks : Coverage
  victimBytes : ℕ
  items : List GcReplacementItem
  replacementEstimate : ℕ
  budgetExceeded : Bool

def Proving.initial : Proving where
  victims := []
  replacementChunks := ∅
  victimBytes := 0
  items := []
  replacementEstimate := 0
  budgetExceeded := false

/-- Accepts a verified candidate unless the proof gets too large; its claims are then taken back. -/
def acceptVictim (proving : Proving) (container : SealedContainer) (claims : VictimClaims) :
    Except MaintenanceError Proving := do
  let projected ← replacementFileBytesUpperBound claims.replacementChunks
  if projected > GC_CANDIDATE_PROOF_MAX_RAW_REPLACEMENT_BYTES then
    pure { proving with replacementChunks := claims.replacementChunks.without claims.newlyRequired,
                        budgetExceeded := true }
  else do
    let replacementEstimate ← checkedAdd .arithmeticOverflow proving.replacementEstimate
      claims.estimate
    require (container.containerId ∈ proving.victims.map SealedContainer.containerId) .assertion
    let victimBytes ← checkedAdd .arithmeticOverflow proving.victimBytes container.fileLength
    pure { victims := proving.victims ++ [container],
           replacementChunks := claims.replacementChunks, victimBytes,
           items := proving.items ++ claims.items, replacementEstimate,
           budgetExceeded := proving.budgetExceeded }

/-- Takes a candidate as a victim while the budget lasts. -/
def proveVictim (pool : Pool) (proving : Proving) (row : GcCandidateCatalogRow) :
    Except MaintenanceError Proving :=
  if proving.budgetExceeded then .ok proving
  else
    match pool.find? (fun container => decide (container.containerId = row.containerId)) with
    | none => .ok proving
    | some container => do
        decodePublished pool container
        require (container.containerGeneration ≠ row.containerGeneration ∨
          container.fileLength ≠ row.physicalBytes) .gcCandidateIdentityMismatch
        let claims ← container.records.foldlM (claimRecord reverse)
          ⟨proving.replacementChunks, [], [], 0⟩
        acceptVictim proving container claims

end Proving

/-- The victims that can be retired, and what has to be copied first. -/
structure GcCandidateProof where
  victims : List SealedContainer
  victimBytes : ℕ
  replacementChunks : Coverage
  items : List GcReplacementItem

/-- The last checks of a proof: it has a victim and promises a gain. -/
def finishProof (proving : Proving) : Except MaintenanceError GcCandidateProof := do
  require (proving.victims = [] ∧ proving.budgetExceeded) .gcCandidateProofBudgetExceeded
  require (proving.victims = []) .emptyGcCandidateProof
  let replacementUpper ← replacementFileBytesUpperBound proving.replacementChunks
  let estimated ← boundedReplacementEstimate proving.replacementEstimate
    proving.replacementChunks.count
  require (proving.victimBytes ≤ estimated)
    (.unprofitableGcCandidateProof proving.victimBytes replacementUpper)
  pure ⟨proving.victims, proving.victimBytes, proving.replacementChunks, proving.items⟩

/-- The reverse dependencies of the candidates in the pinned Exact generation. -/
def reverseDependencies (view : OnlineView) (entries : List ExactIndexEntry)
    (candidates : List ChunkId) : Except MaintenanceError ReverseDependencyGeneration := do
  let projection ← entries.foldlM (projectDependent candidates) candidates
  -- The liveness scan only reports Chunks of the projection.
  let protectedChunks : OnlineChunks := fun chunk =>
    if chunk ∈ projection then view.protectedChunks chunk else none
  let requiredChunks ← entries.foldlM (requireActive candidates protectedChunks) ∅
  projection.forM (requireCovered protectedChunks requiredChunks)
  pure ⟨requiredChunks, dependentBases candidates entries view.dependentBasePins⟩

/-- The proof over a shortlist, from one view of the index. -/
def proveGcCandidates (view : OnlineView) (shortlist : List GcCandidateCatalogRow) (pool : Pool) :
    Except MaintenanceError GcCandidateProof :=
  match view.exact with
  | none => .error .gcProofRequiresActiveExactIndex
  | some entries => do
      require (view.exactProfileMatches = false) .exactProfileMismatch
      let rows := shortlist.take GC_CANDIDATE_PROOF_MAX_VICTIMS
      let candidates ← collectBoundedCandidateChunks pool rows rows.length
      require (candidates.rows = []) .emptyGcCandidateProof
      let reverse ← reverseDependencies view entries candidates.chunkIds
      let proving ← candidates.rows.foldlM (proveVictim reverse pool) Proving.initial
      finishProof proving

/-- What the other repositories answer during a retirement, from the preflight to the REMOVED
activation. -/
structure RetirementEnvironment where
  dataReferences : ℕ
  profileMatches : Bool
  proofCurrentBefore : Bool
  exactBound : Bool
  proofCurrentActivating : Bool
  exactBoundActivating : Bool
  dataReferencesActivating : ℕ
  activateRetiring : Except MaintenanceError Unit
  drain : Except MaintenanceError Unit
  activateRemoved : Except MaintenanceError Unit

/-- Copies what the proof claims, then retires the victims. -/
def retireOnline (writer : ReplacementWriter) (environment : RetirementEnvironment)
    (proof : GcCandidateProof) (generation : ℕ) (pool : Pool) : Except MaintenanceError Pool := do
  require (environment.dataReferences ≠ 0) .staleGcPlan
  require (environment.profileMatches = false) .gcPlanProfileMismatch
  require (environment.proofCurrentBefore = false) .staleGcPlan
  require (environment.exactBound = false) .staleGcPlan
  let published ← publishCollectedItems writer proof.replacementChunks pool generation proof.items
  require (environment.proofCurrentActivating = false) .staleGcPlan
  require (environment.exactBoundActivating = false) .staleGcPlan
  require (environment.dataReferencesActivating ≠ 0) .staleGcPlan
  environment.activateRetiring
  environment.drain
  let (bytesRemoved, remaining) ← removeVerifiedPublished published.pool
    (proof.victims.map SealedContainer.containerId)
  require (bytesRemoved ≠ proof.victimBytes) .assertion
  environment.activateRemoved
  pure remaining

variable {chunk : ChunkCopy} {chunks : List ChunkCopy} {next : GroupClaims} {claims : VictimClaims}
  {shortlist : List GcCandidateCatalogRow}

section Candidates

variable {pool : Pool} {row : GcCandidateCatalogRow} {found next : CandidateChunks}

/-- The Chunks of every selected row are among the candidates. -/
def CandidateChunks.Covers (pool : Pool) (found : CandidateChunks) : Prop :=
  ∀ row ∈ found.rows, ∀ container ∈ pool.find?
    (fun container => decide (container.containerId = row.containerId)),
      ∀ chunk ∈ container.chunks, chunk.1 ∈ found.chunkIds

theorem visitCandidateChunk_eq_ok (visited : visitCandidateChunk row found chunk = .ok next) :
    (∀ id ∈ found.chunkIds, id ∈ next.chunkIds) ∧ chunk.1 ∈ next.chunkIds ∧
      ∀ other ∈ next.rows, other ∈ found.rows ∨ other = row := by
  have rows : ∀ other ∈ (if found.rows.getLast?.all
      (fun previous => decide (previous.containerId ≠ row.containerId)) then
        found.rows ++ [row] else found.rows), other ∈ found.rows ∨ other = row := by
    intro other mem
    split at mem
    · rcases mem_append.mp mem with before | last
      · exact .inl before
      · exact .inr (mem_singleton.mp last)
    · exact .inl mem
  unfold visitCandidateChunk at visited
  simp only at visited
  split at visited
  · rename_i known
    cases visited
    exact ⟨fun _ => id, known, rows⟩
  · split at visited
    · cases visited
    · cases visited
      exact ⟨fun id mem => mem_append_left _ mem, by simp, rows⟩

theorem visitCandidateChunks_eq_ok
    (visited : chunks.foldlM (visitCandidateChunk row) found = .ok next) :
    (∀ id ∈ found.chunkIds, id ∈ next.chunkIds) ∧ (∀ chunk ∈ chunks, chunk.1 ∈ next.chunkIds) ∧
      ∀ other ∈ next.rows, other ∈ found.rows ∨ other = row := by
  induction chunks generalizing found with
  | nil =>
    cases visited
    exact ⟨fun _ => id, by simp, fun _ => .inl⟩
  | cons chunk rest ih =>
    rw [foldlM_cons, bind_ok] at visited
    rcases visited with ⟨middle, first, later⟩
    rcases visitCandidateChunk_eq_ok first with ⟨kept, added, rows⟩
    rcases ih later with ⟨keptLater, addedLater, rowsLater⟩
    refine ⟨fun id mem => keptLater id (kept id mem), ?_, ?_⟩
    · exact forall_mem_cons.mpr ⟨keptLater _ added, addedLater⟩
    · intro other mem
      rcases rowsLater other mem with before | same
      · exact rows other before
      · exact .inr same

theorem CandidateChunks.Covers.step (covers : found.Covers pool)
    (visited : visitCandidate pool found row = .ok next) : next.Covers pool := by
  unfold visitCandidate at visited
  split at visited
  · cases visited
    exact covers
  · rename_i container present
    rw [bind_ok] at visited
    rcases visited with ⟨_, _, chunks⟩
    rcases visitCandidateChunks_eq_ok chunks with ⟨kept, added, rows⟩
    intro other mem holder holds chunk inside
    rcases rows other mem with before | rfl
    · exact kept _ (covers other before holder holds chunk inside)
    · rw [present, Option.mem_some_iff] at holds
      subst holds
      exact added chunk inside

theorem collectBoundedCandidateChunks_covers {rows : List GcCandidateCatalogRow} {selectedCount : ℕ}
    (collected : collectBoundedCandidateChunks pool rows selectedCount = .ok found) :
    found.Covers pool := by
  induction selectedCount using Nat.strong_induction_on with
  | _ selectedCount ih =>
    unfold collectBoundedCandidateChunks at collected
    split at collected
    · rename_i result visited
      cases collected
      exact foldlM_keeps (fun state row _ after covers => CandidateChunks.Covers.step covers)
        (by intro row impossible; cases impossible) visited
    · split at collected
      · exact ih _ (by omega) collected
      · cases collected
    · cases collected

end Candidates

/-- The proof has to keep the Chunk. -/
def ReverseDependencyGeneration.Needs (reverse : ReverseDependencyGeneration) (chunk : ChunkId) :
    Prop :=
  chunk ∈ reverse.requiredChunks ∨ chunk ∈ reverse.storedDependentBases

/-- Every dependent Record of the pool is shown by the Exact generation or pinned. -/
def OnlineView.Shows (view : OnlineView) (entries : List ExactIndexEntry) (pool : Pool) : Prop :=
  ∀ container ∈ pool, ∀ base ∈ container.dependencies,
    (∃ entry ∈ entries, entry.transition ≠ .removed ∧ entry.dependency = some base.1) ∨
      base.1 ∈ view.dependentBasePins

section Required

variable {view : OnlineView} {entries : List ExactIndexEntry} {candidates : List ChunkId}
  {reverse : ReverseDependencyGeneration}

theorem projectDependent_keeps {projection next : List ChunkId} {entry : ExactIndexEntry}
    (projected : projectDependent candidates projection entry = .ok next) :
    ∀ chunk ∈ projection, chunk ∈ next := by
  unfold projectDependent at projected
  intro chunk mem
  split at projected
  · cases projected
    exact mem
  · split at projected
    · cases projected
      exact mem
    · split at projected
      · cases projected
      · cases projected
        exact mem_append_left _ mem

theorem reverseDependencies_needs
    (derived : reverseDependencies view entries candidates = .ok reverse) :
    (∀ chunk ∈ candidates, ∀ length, view.protectedChunks chunk = some length →
      reverse.Needs chunk) ∧
    reverse.storedDependentBases = dependentBases candidates entries view.dependentBasePins := by
  simp only [reverseDependencies, bind_ok, pure_ok] at derived
  rcases derived with ⟨projection, projects, required, _, _, covered, rfl⟩
  have inside : ∀ chunk ∈ candidates, chunk ∈ projection :=
    @foldlM_keeps _ _ _ _ entries _ (fun projection => ∀ chunk ∈ candidates, chunk ∈ projection)
      (fun state entry _ next before stepped chunk mem =>
        projectDependent_keeps stepped chunk (before chunk mem)) _ (fun _ => id) projects
  refine ⟨?_, rfl⟩
  intro chunk mem length protectedChunk
  have checked := forM_ok.mp covered chunk (inside chunk mem)
  unfold requireCovered at checked
  simp only [if_pos (inside chunk mem), protectedChunk, require_ok, not_not] at checked
  left
  rw [← lookup_isSome, checked]
  rfl

theorem mem_dependentBases {pool : Pool} (shows : view.Shows entries pool)
    {container : SealedContainer} {base : ChunkCopy} (mem : container ∈ pool)
    (depends : base ∈ container.dependencies) (candidate : base.1 ∈ candidates) :
    base.1 ∈ dependentBases candidates entries view.dependentBasePins := by
  rw [dependentBases, mem_append]
  rcases shows container mem base depends with ⟨entry, shown, stored, dependent⟩ | pinned
  · right
    rw [mem_flatMap]
    refine ⟨entry, mem_filter.mpr ⟨shown, decide_eq_true ⟨stored, .inr ⟨base.1, ?_, candidate⟩⟩⟩,
      mem_filter.mpr ⟨?_, decide_eq_true candidate⟩⟩
    · rw [dependent]
      rfl
    · rw [dependent]
      simp
  · exact .inl (mem_filter.mpr ⟨pinned, decide_eq_true candidate⟩)

end Required

/-- The Chunks claimed on top of an earlier coverage. -/
structure Claimed (pool : Pool) (before claimed : Coverage) (newlyRequired : List ChunkId) :
    Prop where
  kept : ∀ chunk ∈ before, chunk ∈ claimed
  fresh : ∀ chunk ∈ newlyRequired, chunk ∉ before ∧ chunk ∈ claimed
  only : ∀ chunk ∈ claimed, chunk ∈ before ∨ chunk ∈ newlyRequired
  lengths : ∀ chunk length, claimed.lookup chunk = some length →
    ∃ container ∈ pool, (chunk, length) ∈ container.chunks

/-- An item of stored, claimed Chunks that decodes on its own. -/
def Collectable (pool : Pool) (claimed : Coverage) (item : GcReplacementItem) : Prop :=
  item.Independent ∧ ∀ chunk ∈ item.identities,
    (∃ container ∈ pool, chunk ∈ container.chunks) ∧ chunk.1 ∈ claimed

theorem Collectable.mono {pool : Pool} {claimed larger : Coverage} {item : GcReplacementItem}
    (collectable : Collectable pool claimed item) (grows : ∀ chunk ∈ claimed, chunk ∈ larger) :
    Collectable pool larger item := by
  refine ⟨collectable.1, ?_⟩
  intro chunk holds
  rcases collectable.2 chunk holds with ⟨stored, mem⟩
  exact ⟨stored, grows _ mem⟩

section Claims

variable {reverse : ReverseDependencyGeneration} {pool : Pool} {before : Coverage}
  {record : EncodingRecord} {container : SealedContainer}

theorem Claimed.insert {claimed : Coverage} {newlyRequired : List ChunkId}
    (claims : Claimed pool before claimed newlyRequired)
    (stored : pool.Stores chunk) :
    (chunk.1 ∈ claimed → Claimed pool before (claimed.insert chunk.1 chunk.2) newlyRequired) ∧
      (chunk.1 ∉ claimed →
        Claimed pool before (claimed.insert chunk.1 chunk.2) (newlyRequired ++ [chunk.1])) := by
  have lengths : Coverage.StoredIn (claimed.insert chunk.1 chunk.2) pool := by
    intro other length found
    by_cases same : other = chunk.1
    · subst same
      rw [lookup_insert, Option.some.injEq] at found
      subst found
      exact stored
    · rw [lookup_insert_ne same] at found
      exact claims.lengths other length found
  have grows : ∀ other ∈ claimed, other ∈ claimed.insert chunk.1 chunk.2 :=
    fun other mem => (mem_insert _).mpr (.inr mem)
  constructor
  · intro present
    refine ⟨fun other mem => grows other (claims.kept other mem),
      fun other mem => ⟨(claims.fresh other mem).1,
        grows other (claims.fresh other mem).2⟩, ?_, lengths⟩
    intro other mem
    rcases (mem_insert _).mp mem with rfl | old
    · exact claims.only _ present
    · exact claims.only other old
  · intro absent
    refine ⟨fun other mem => grows other (claims.kept other mem), ?_, ?_, lengths⟩
    · intro other mem
      rcases mem_append.mp mem with old | last
      · exact ⟨(claims.fresh other old).1, grows other (claims.fresh other old).2⟩
      · rw [mem_singleton.mp last]
        exact ⟨fun early => absent (claims.kept _ early), (mem_insert _).mpr (.inl rfl)⟩
    · intro other mem
      rcases (mem_insert _).mp mem with rfl | old
      · exact .inr (by simp)
      · rcases claims.only other old with early | newly
        · exact .inl early
        · exact .inr (mem_append_left _ newly)

theorem requiredHere_eq_ok {required : Bool} (checked : requiredHere reverse chunk = .ok required) :
    required = true ↔ reverse.Needs chunk.1 := by
  unfold requiredHere at checked
  unfold ReverseDependencyGeneration.Needs
  split at checked
  · rename_i expected found
    split at checked
    · cases checked
    · cases checked
      refine iff_of_true rfl (.inl ?_)
      rw [← lookup_isSome, found]
      rfl
  · rename_i missing
    cases checked
    have absent : chunk.1 ∉ reverse.requiredChunks := by
      rw [← lookup_isSome, missing]
      simp
    simp [absent]

section

variable {claims : GroupClaims}
  (claimed : Claimed pool before claims.replacementChunks claims.newlyRequired)

include claimed

theorem claimChunkHere_eq_ok (stored : pool.Stores chunk)
    (stepped : claimChunkHere reverse record claims chunk = .ok next) :
    Claimed pool before next.replacementChunks next.newlyRequired ∧
      (∀ other ∈ claims.replacementChunks, other ∈ next.replacementChunks) ∧
      (reverse.Needs chunk.1 → chunk.1 ∈ next.replacementChunks) ∧
      (next.fullLive = true → claims.fullLive = true ∧ chunk.1 ∈ next.replacementChunks) := by
  simp only [claimChunkHere, bind_ok] at stepped
  rcases stepped with ⟨required, checked, stepped⟩
  have needed := requiredHere_eq_ok checked
  have inserted : ∀ other ∈ claims.replacementChunks,
      other ∈ claims.replacementChunks.insert chunk.1 chunk.2 :=
    fun other mem => (mem_insert _).mpr (.inr mem)
  have here : chunk.1 ∈ claims.replacementChunks.insert chunk.1 chunk.2 :=
    (mem_insert _).mpr (.inl rfl)
  unfold claimHere at stepped
  split at stepped
  · split at stepped
    · rename_i found
      cases stepped
      exact ⟨(claimed.insert stored).1 found, inserted, fun _ => here, by simp⟩
    · rename_i absent
      simp only [bind_ok, pure_ok] at stepped
      rcases stepped with ⟨_, _, _, _, rfl⟩
      exact ⟨(claimed.insert stored).2 absent, inserted, fun _ => here, fun full => ⟨full, here⟩⟩
  · rename_i unneeded
    cases stepped
    refine ⟨claimed, fun _ => id, ?_, by simp⟩
    intro needs
    exact absurd (needed.mpr needs) unneeded

theorem claimChunksHere_eq_ok
    (stored : ∀ chunk ∈ chunks, pool.Stores chunk)
    (stepped : chunks.foldlM (claimChunkHere reverse record) claims = .ok next) :
    Claimed pool before next.replacementChunks next.newlyRequired ∧
      (∀ other ∈ claims.replacementChunks, other ∈ next.replacementChunks) ∧
      (∀ chunk ∈ chunks, reverse.Needs chunk.1 → chunk.1 ∈ next.replacementChunks) ∧
      (next.fullLive = true → claims.fullLive = true ∧
        ∀ chunk ∈ chunks, chunk.1 ∈ next.replacementChunks) := by
  induction chunks generalizing claims with
  | nil =>
    cases stepped
    exact ⟨claimed, fun _ => id, by simp, fun full => ⟨full, by simp⟩⟩
  | cons chunk rest ih =>
    rw [foldlM_cons, bind_ok] at stepped
    rcases stepped with ⟨middle, first, later⟩
    rcases claimChunkHere_eq_ok claimed (stored chunk mem_cons_self) first with
      ⟨claimedMiddle, grows, needs, full⟩
    rcases ih claimedMiddle (fun other mem => stored other (mem_cons_of_mem _ mem)) later with
      ⟨claimedNext, growsLater, needsLater, fullLater⟩
    refine ⟨claimedNext, fun other mem => growsLater other (grows other mem), ?_, ?_⟩
    · exact forall_mem_cons.mpr ⟨fun need => growsLater _ (needs need), needsLater⟩
    · intro all
      have rest := fullLater all
      have head := full rest.1
      exact ⟨head.1, forall_mem_cons.mpr ⟨growsLater _ head.2, rest.2⟩⟩

end

/-- The claims of the Records scanned so far. -/
structure VictimClaimed (pool : Pool) (before : Coverage) (claims : VictimClaims) : Prop where
  claimed : Claimed pool before claims.replacementChunks claims.newlyRequired
  items : ∀ item ∈ claims.items, Collectable pool claims.replacementChunks item

theorem VictimClaimed.nextRecord {next : VictimClaims} (claimed : VictimClaimed pool before claims)
    (stored : ∀ chunk ∈ record.chunks, pool.Stores chunk)
    (stepped : claimRecord reverse claims record = .ok next) : VictimClaimed pool before next ∧
      (∀ other ∈ claims.replacementChunks, other ∈ next.replacementChunks) ∧
      ∀ chunk ∈ record.chunks, reverse.Needs chunk.1 → chunk.1 ∈ next.replacementChunks := by
  simp only [claimRecord, bind_ok] at stepped
  rcases stepped with ⟨group, scans, stepped⟩
  rcases claimChunksHere_eq_ok claimed.claimed stored scans with ⟨claimedGroup, grows, needs, full⟩
  have carried : ∀ item ∈ claims.items, Collectable pool group.replacementChunks item :=
    fun item mem => (claimed.items item mem).mono grows
  split at stepped
  · rename_i transplant
    simp only [bind_ok, pure_ok] at stepped
    rcases stepped with ⟨_, _, rfl⟩
    refine ⟨⟨claimedGroup, ?_⟩, grows, needs⟩
    exact forall_mem_append.mpr ⟨carried, forall_mem_singleton.mpr ⟨transplant.2.2, fun
      chunk holds => ⟨stored chunk holds, (full transplant.1).2 chunk holds⟩⟩⟩
  · simp only [bind_ok, pure_ok] at stepped
    rcases stepped with ⟨_, _, rfl⟩
    refine ⟨⟨claimedGroup, ?_⟩, grows, needs⟩
    intro item mem
    rcases mem_append.mp mem with before | last
    · exact carried item before
    · rcases mem_map.mp last with ⟨chunk, inside, rfl⟩
      rw [mem_filter, decide_eq_true_iff] at inside
      refine ⟨trivial, ?_⟩
      intro other same
      rw [mem_singleton.mp same]
      exact ⟨stored chunk inside.1, (claimedGroup.fresh chunk.1 inside.2).2⟩

theorem VictimClaimed.records {next : VictimClaims} {records : List EncodingRecord}
    (claimed : VictimClaimed pool before claims)
    (stored : ∀ record ∈ records, ∀ chunk ∈ record.chunks, pool.Stores chunk)
    (stepped : records.foldlM (claimRecord reverse) claims = .ok next) :
    VictimClaimed pool before next ∧
      (∀ other ∈ claims.replacementChunks, other ∈ next.replacementChunks) ∧
      ∀ record ∈ records, ∀ chunk ∈ record.chunks, reverse.Needs chunk.1 →
        chunk.1 ∈ next.replacementChunks := by
  induction records generalizing claims with
  | nil =>
    cases stepped
    exact ⟨claimed, fun _ => id, by simp⟩
  | cons record rest ih =>
    rw [foldlM_cons, bind_ok] at stepped
    rcases stepped with ⟨middle, first, later⟩
    rcases claimed.nextRecord (stored record mem_cons_self) first with ⟨middleClaimed, grows, needs⟩
    rcases ih middleClaimed (fun other mem => stored other (mem_cons_of_mem _ mem)) later with
      ⟨nextClaimed, growsLater, needsLater⟩
    refine ⟨nextClaimed, fun other mem => growsLater other (grows other mem), ?_⟩
    exact forall_mem_cons.mpr
      ⟨fun chunk mem need => growsLater _ (needs chunk mem need), needsLater⟩

end Claims

/-- The invariant of the pass: what the victims hold and is needed is claimed for copying. -/
structure Proved (pool : Pool) (reverse : ReverseDependencyGeneration) (candidates : List ChunkId)
    (victims : List SealedContainer) (replacementChunks : Coverage)
    (items : List GcReplacementItem) : Prop where
  stored : ∀ victim ∈ victims, victim ∈ pool
  candidates : ∀ victim ∈ victims, ∀ chunk ∈ victim.chunks, chunk.1 ∈ candidates
  claimed : ∀ victim ∈ victims, ∀ chunk ∈ victim.chunks, reverse.Needs chunk.1 →
    chunk.1 ∈ replacementChunks
  lengths : ∀ chunk length, replacementChunks.lookup chunk = some length →
    ∃ container ∈ pool, (chunk, length) ∈ container.chunks
  items : ∀ item ∈ items, Collectable pool replacementChunks item

/-- The Proving state carries such victims. -/
def Proving.Sound (pool : Pool) (reverse : ReverseDependencyGeneration) (candidates : List ChunkId)
    (proving : Proving) : Prop :=
  Proved pool reverse candidates proving.victims proving.replacementChunks proving.items

section Victims

variable {pool : Pool} {reverse : ReverseDependencyGeneration} {candidates : List ChunkId}
  {proving next : Proving} {container : SealedContainer}

theorem Proving.Sound.accept (sound : proving.Sound pool reverse candidates)
    (stored : container ∈ pool) (inside : ∀ chunk ∈ container.chunks, chunk.1 ∈ candidates)
    (claimed : VictimClaimed pool proving.replacementChunks claims)
    (needs : ∀ chunk ∈ container.chunks, reverse.Needs chunk.1 → chunk.1 ∈ claims.replacementChunks)
    (accepted : acceptVictim proving container claims = .ok next) :
    next.Sound pool reverse candidates := by
  simp only [acceptVictim, bind_ok] at accepted
  rcases accepted with ⟨projected, _, accepted⟩
  split at accepted
  · rw [pure_ok] at accepted
    subst accepted
    have kept : ∀ chunk ∈ proving.replacementChunks,
        chunk ∈ claims.replacementChunks.without claims.newlyRequired := fun chunk mem =>
      mem_without.mpr ⟨claimed.claimed.kept chunk mem,
        fun newly => (claimed.claimed.fresh chunk newly).1 mem⟩
    refine ⟨sound.stored, sound.candidates,
      fun victim mem chunk holds need => kept _ (sound.claimed victim mem chunk holds need), ?_, ?_⟩
    · intro chunk length found
      have present : chunk ∈ claims.replacementChunks.without claims.newlyRequired := by
        rw [← lookup_isSome, found]
        rfl
      rw [lookup_without (mem_without.mp present).2] at found
      exact claimed.claimed.lengths chunk length found
    · exact fun item mem => (sound.items item mem).mono kept
  · simp only [bind_ok, pure_ok] at accepted
    rcases accepted with ⟨_, _, _, _, _, _, rfl⟩
    refine ⟨?_, ?_, ?_, claimed.claimed.lengths, ?_⟩
    · exact forall_mem_append.mpr ⟨sound.stored, forall_mem_singleton.mpr stored⟩
    · exact forall_mem_append.mpr ⟨sound.candidates, forall_mem_singleton.mpr inside⟩
    · refine forall_mem_append.mpr ⟨?_, forall_mem_singleton.mpr needs⟩
      intro victim mem chunk holds need
      exact claimed.claimed.kept _ (sound.claimed victim mem chunk holds need)
    · exact forall_mem_append.mpr ⟨fun item mem => (sound.items item mem).mono claimed.claimed.kept,
        claimed.items⟩

theorem Proving.Sound.victim {row : GcCandidateCatalogRow}
    (sound : proving.Sound pool reverse candidates) (inside : ∀ container ∈ pool.find?
      (fun container => decide (container.containerId = row.containerId)),
        ∀ chunk ∈ container.chunks, chunk.1 ∈ candidates)
    (proved : proveVictim reverse pool proving row = .ok next) :
    next.Sound pool reverse candidates := by
  unfold proveVictim at proved
  split at proved
  · cases proved
    exact sound
  · split at proved
    · cases proved
      exact sound
    · rename_i container found
      simp only [bind_ok] at proved
      rcases proved with ⟨_, _, _, _, claims, scans, accepted⟩
      have stored := mem_of_find?_eq_some found
      have start : VictimClaimed pool proving.replacementChunks
          ⟨proving.replacementChunks, [], [], 0⟩ :=
        ⟨⟨fun _ => id, by simp, fun _ => .inl, sound.lengths⟩, by simp⟩
      have here : ∀ record ∈ container.records, ∀ chunk ∈ record.chunks, pool.Stores chunk :=
        fun record recorded chunk holds =>
          ⟨container, stored, mem_chunks.mpr ⟨record, recorded, holds⟩⟩
      rcases start.records here scans with ⟨claimed, _, needs⟩
      refine sound.accept stored (inside container found) claimed ?_ accepted
      intro chunk holds need
      rcases mem_chunks.mp holds with ⟨record, recorded, held⟩
      exact needs record recorded chunk held need

/-- A candidate proof: its victims are stored, and what they hold and the proof needs is
gathered. -/
theorem proveGcCandidates_spec {view : OnlineView} {proof : GcCandidateProof}
    (proves : proveGcCandidates view shortlist pool = .ok proof) :
    ∃ entries candidates reverse, view.exact = some entries ∧
      reverseDependencies view entries candidates = .ok reverse ∧
      Proved pool reverse candidates proof.victims proof.replacementChunks proof.items := by
  unfold proveGcCandidates at proves
  split at proves
  · cases proves
  · rename_i entries selected
    simp only [bind_ok] at proves
    rcases proves with ⟨_, _, candidates, collects, _, _, reverse, derives, proving, folds,
      finishes⟩
    have covers := collectBoundedCandidateChunks_covers collects
    have start : Proving.initial.Sound pool reverse candidates.chunkIds :=
      ⟨by simp [Proving.initial], by simp [Proving.initial], by simp [Proving.initial],
        by simp [Proving.initial, lookup_empty], by simp [Proving.initial]⟩
    have sound := foldlM_keeps (fun state row mem after before =>
      Proving.Sound.victim before (covers row mem)) start folds
    simp only [finishProof, bind_ok, pure_ok] at finishes
    rcases finishes with ⟨_, _, _, _, _, _, _, _, _, _, rfl⟩
    exact ⟨entries, candidates.chunkIds, reverse, selected, derives, sound⟩

end Victims

section Retirement

variable {writer : ReplacementWriter} {environment : RetirementEnvironment} {view : OnlineView}
  {proof : GcCandidateProof} {generation : ℕ} {pool remaining : Pool}

theorem Collectable.admissible {required : Coverage} {item : GcReplacementItem}
    (collectable : Collectable pool required item) (agrees : pool.Agrees)
    (lengths : required.StoredIn pool) : Admissible required item := by
  refine ⟨collectable.1, ?_⟩
  intro chunk holds
  rcases collectable.2 chunk holds with ⟨⟨container, mem, stored⟩, wanted⟩
  exact lookup_of_agrees agrees lengths mem stored wanted

theorem retireOnline_keepsDecodable (distinct : pool.Distinct) (agrees : pool.Agrees)
    (resolved : pool.Resolved)
    (bounded : ∀ container ∈ pool, container.containerGeneration ≤ generation)
    (proves : proveGcCandidates view shortlist pool = .ok proof)
    (shows : ∀ entries, view.exact = some entries → view.Shows entries pool)
    (retired : retireOnline writer environment proof generation pool = .ok remaining) :
    KeepsDecodable view.protectedChunks pool remaining := by
  rcases proveGcCandidates_spec proves with ⟨entries, candidates, reverse, selected, derives,
    proved⟩
  have needs := reverseDependencies_needs derives
  simp only [retireOnline, bind_ok, pure_ok] at retired
  rcases retired with ⟨_, _, _, _, _, _, _, _, published, publishes, _, _, _, _, _, _, _, _, _, _,
    ⟨bytes, rest⟩, removes, _, _, _, _, rfl⟩
  have replaced := publishCollectedItems_spec bounded
    (fun item mem => (proved.items item mem).admissible agrees proved.lengths) publishes
  have left := left_of_replaced distinct proved.stored replaced removes
  apply left.keepsDecodable
  · intro container mem _ base depends
    rcases resolved container mem base depends with ⟨holder, stored, record, recorded,
      independent, holds⟩
    have held : base ∈ holder.chunks := mem_chunks.mpr ⟨record, recorded, holds⟩
    by_cases victim : holder ∈ proof.victims
    · have candidate := proved.candidates holder victim base held
      have needed : reverse.Needs base.1 := by
        right
        rw [needs.2]
        exact mem_dependentBases (shows entries selected) mem depends candidate
      exact left.complete_of_mem agrees proved.lengths stored held
        (proved.claimed holder victim base held needed)
    · exact ⟨holder, (left.mem holder).mpr (.inl ⟨stored, victim⟩), record, recorded, independent,
        holds⟩
  · intro chunk length online victim mem isVictim holds
    have needed := needs.1 chunk (proved.candidates victim isVictim _ holds) length online
    exact (left.complete_of_mem agrees proved.lengths mem holds
      (proved.claimed victim isVictim _ holds needed)).decodable

end Retirement

/-- An offline collection keeps every stored dependent Record and every protected Chunk decodable
unless it takes a Base's only independent copy while a fully live Container holds a dependent one.
A completed online retirement always does. -/
theorem collections_keep_decodable (writer : ReplacementWriter) (generation : ℕ) (pool : Pool)
    (distinct : pool.Distinct) (agrees : pool.Agrees) (resolved : pool.Resolved)
    (bounded : ∀ container ∈ pool, container.containerGeneration ≤ generation) :
    (∀ onlineChunks environment plan remaining, planContainerGc onlineChunks pool = .ok plan →
      garbageCollect writer environment plan generation pool = .ok remaining →
        (KeepsDecodable onlineChunks pool remaining ↔
          plan.compactionVictims = [] ∨ KeepsBases onlineChunks pool)) ∧
    ∀ (view : OnlineView) shortlist environment proof remaining,
      (∀ entries, view.exact = some entries → view.Shows entries pool) →
      proveGcCandidates view shortlist pool = .ok proof →
        retireOnline writer environment proof generation pool = .ok remaining →
          KeepsDecodable view.protectedChunks pool remaining := by
  constructor
  · intro onlineChunks environment plan remaining plans collected
    exact garbageCollect_keeps_iff distinct agrees resolved bounded plans collected
  · intro view shortlist environment proof remaining shows proves retired
    exact retireOnline_keepsDecodable distinct agrees resolved bounded proves shows retired

def sampleChunk (tag : UInt8) : ChunkCopy :=
  (⟨List.replicate 32 tag, by simp⟩, 4096)

def sampleContainer (tag : UInt8) (records : List EncodingRecord) : SealedContainer where
  containerId := ⟨List.replicate 16 tag, by simp⟩
  containerGeneration := 1
  fileLength := 65536
  records

def sampleRecord (codec : Codec) (tag : UInt8) : EncodingRecord where
  codec
  recordLength := 4480
  chunks := [sampleChunk tag]
  occupied := List.cons_ne_nil _ _

def sampleWriter : ReplacementWriter where
  gcReplacementContainerId generation _ :=
    ⟨List.replicate 16 (200 + UInt8.ofNat generation), by simp⟩
  compresses _ := false
  recordLength _ _ := 4480
  fileLength _ := 65536

/-- Only Chunks 4 and 6 are protected. -/
def sampleOnline : OnlineChunks := fun chunk =>
  if chunk = (sampleChunk 4).1 ∨ chunk = (sampleChunk 6).1 then some 4096 else none

/-- Two mixed Containers. Chunk 4 depends on Chunk 2 in the first one. -/
def mixedPool : Pool :=
  [sampleContainer 1 [sampleRecord .raw 2, sampleRecord .raw 3],
    sampleContainer 2 [sampleRecord (.dependent (sampleChunk 2)) 4],
    sampleContainer 3 [sampleRecord .raw 5, sampleRecord .raw 6]]

theorem mixedPool_keepsBases : KeepsBases sampleOnline mixedPool := by
  have named : ∀ container ∈ mixedPool, ∀ base ∈ container.dependencies,
    base.1 = (sampleChunk 2).1 := by
    decide
  have covered : ∀ holder ∈ mixedPool, FullyLive sampleOnline (storedDependentBases mixedPool)
    holder →
      ∀ chunk ∈ holder.chunks, chunk.1 ≠ (sampleChunk 2).1 := by
    decide
  intro container mem _ base depends holds
  rcases holds with ⟨holder, stored, full, length, held⟩
  exact absurd (named container mem base depends) (covered holder stored full (base.1, length) held)

/-- The Exact generation that shows every Record of the pool as ACTIVE. -/
def exactEntries (pool : Pool) : List ExactIndexEntry :=
  pool.flatMap fun container => container.records.flatMap fun record =>
    record.chunks.map fun chunk =>
      { chunkId := chunk.1, logicalLength := chunk.2, containerId := container.containerId
        dependency := record.codec.dependency.map Prod.fst, transition := .active }

def sampleView : OnlineView where
  exact := some (exactEntries mixedPool)
  exactProfileMatches := true
  protectedChunks := sampleOnline
  dependentBasePins := []

/-- The catalog rows of the two mixed Containers. -/
def sampleShortlist : List GcCandidateCatalogRow :=
  [⟨(sampleContainer 1 []).containerId, 1, 65536⟩, ⟨(sampleContainer 3 []).containerId, 1, 65536⟩]

/-- A retirement that nothing stands in the way of. -/
def undisturbedRetirement : RetirementEnvironment :=
  ⟨0, true, true, true, true, true, 0, .ok (), .ok (), .ok ()⟩

theorem retires_mixedPool : ∃ proof remaining,
    proveGcCandidates sampleView sampleShortlist mixedPool = .ok proof ∧
      retireOnline sampleWriter undisturbedRetirement proof 1 mixedPool = .ok remaining ∧
      sampleContainer 1 [sampleRecord .raw 2, sampleRecord .raw 3] ∉ remaining := by
  have retired : ((proveGcCandidates sampleView sampleShortlist mixedPool).bind fun proof =>
      (retireOnline sampleWriter undisturbedRetirement proof 1 mixedPool).map fun remaining =>
        decide (sampleContainer 1 [sampleRecord .raw 2, sampleRecord .raw 3] ∉ remaining)) =
      .ok true := by decide +kernel
  rcases bind_ok.mp retired with ⟨proof, proved, mapped⟩
  cases ran : retireOnline sampleWriter undisturbedRetirement proof 1 mixedPool with
  | error failure =>
    rw [ran] at mapped
    cases mapped
  | ok remaining =>
    rw [ran] at mapped
    exact ⟨proof, remaining, proved, ran, of_decide_eq_true (Except.ok.inj mapped)⟩

/-- Both mixed Containers are collected, offline and online, and Chunk 4 still decodes. -/
theorem mixedPool_keepsDecodable :
    (∃ remaining, scrubAndCollect sampleWriter .undisturbed 1 mixedPool sampleOnline =
      .ok remaining ∧ sampleContainer 1 [sampleRecord .raw 2, sampleRecord .raw 3] ∉ remaining ∧
      KeepsDecodable sampleOnline mixedPool remaining) ∧
    ∃ proof remaining, proveGcCandidates sampleView sampleShortlist mixedPool = .ok proof ∧
      retireOnline sampleWriter undisturbedRetirement proof 1 mixedPool = .ok remaining ∧
      sampleContainer 1 [sampleRecord .raw 2, sampleRecord .raw 3] ∉ remaining ∧
      KeepsDecodable sampleOnline mixedPool remaining := by
  have collected : scrubAndCollect sampleWriter .undisturbed 1 mixedPool sampleOnline =
      .ok [sampleContainer 2 [sampleRecord (.dependent (sampleChunk 2)) 4],
        replacementContainer sampleWriter 2 [.transplanted (sampleRecord .raw 2),
          .transplanted (sampleRecord .raw 6)]] := by
    rfl
  have keeps := collections_keep_decodable sampleWriter 1 mixedPool (by decide) (by decide)
    (by decide) (by decide)
  refine ⟨⟨_, collected, by decide, ?_⟩, ?_⟩
  · rcases bind_ok.mp collected with ⟨plan, plans, collects⟩
    exact (keeps.1 sampleOnline .undisturbed plan _ plans collects).mpr (.inr mixedPool_keepsBases)
  · rcases retires_mixedPool with ⟨proof, remaining, proved, retired, gone⟩
    refine ⟨proof, remaining, proved, retired, gone, ?_⟩
    have shows : sampleView.Shows (exactEntries mixedPool) mixedPool := by
      unfold OnlineView.Shows
      decide
    refine keeps.2 sampleView _ _ _ _ (fun entries pinned => ?_) proved retired
    cases pinned
    exact shows

/-- Chunk 2 is the Base of the protected Chunk 4. A fully live Container holds it as a dependent
copy, so the mixed Container with its independent copy is collected without a replacement. -/
def coveredPool : Pool :=
  [sampleContainer 1 [sampleRecord .raw 1, sampleRecord (.dependent (sampleChunk 1)) 2],
    sampleContainer 2 [sampleRecord .raw 2, sampleRecord .raw 3],
    sampleContainer 3 [sampleRecord (.dependent (sampleChunk 2)) 4]]

/-- The base of a protected Chunk is collected, which leaves it undecodable. -/
theorem collection_loses_protected_chunk :
    coveredPool.Distinct ∧ coveredPool.Agrees ∧ coveredPool.Resolved ∧
      sampleOnline (sampleChunk 4).1 = some (sampleChunk 4).2 ∧
      coveredPool.Decodable (sampleChunk 4) ∧
      ∃ remaining, scrubAndCollect sampleWriter .undisturbed 1 coveredPool sampleOnline =
        .ok remaining ∧ ¬ Pool.Decodable remaining (sampleChunk 4) := by
  refine ⟨by decide, by decide, by decide, by decide, by decide,
    [sampleContainer 1 [sampleRecord .raw 1, sampleRecord (.dependent (sampleChunk 1)) 2],
      sampleContainer 3 [sampleRecord (.dependent (sampleChunk 2)) 4]], rfl, by decide⟩

end Fastdup.Store.Maintenance
