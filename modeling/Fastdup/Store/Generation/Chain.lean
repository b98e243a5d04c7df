import Fastdup.Store.Generation.Recovery

/-!
# Inode numbers along a chain of generations

A commit and the forward scan of recovery compare a root with its immediate predecessor only.
The rule still binds the whole chain: below the allocation cursor of a generation, a later one
shows no number that the generation does not show, and this relation composes.
-/

namespace Fastdup.Store

open Library Checked Format List

variable {ObjectId : Type}

/-- The predecessor of a commit. The copy that the writer keeps is named by its identity, as
the stored one is. -/
def writerPredecessorRoot (read : MetadataReader ObjectId)
    (previousRecord : CommitRecord ObjectId) :
    Except (GenerationError ObjectId) (NamespaceRoot ObjectId) := do
  let previousRoot ← readNamespaceRoot read previousRecord.namespaceRoot
  require (recordMatchesNamespaceRoot previousRecord previousRoot = false)
    .previousGenerationRecordMismatch
  return previousRoot

/-- Reads the root of the previous record and checks the step from it. -/
def verifyGenerationTransition (read : MetadataReader ObjectId)
    (previousRecord : CommitRecord ObjectId) (proposedRoot : NamespaceRoot ObjectId) :
    Except (GenerationError ObjectId) Unit := do
  let previousRoot ← writerPredecessorRoot read previousRecord
  verifyGenerationTransitionPair previousRecord previousRoot proposedRoot

/-- The check that a commit makes of a root against the log. -/
def verifyProposedRoot (read : MetadataReader MetadataObjectId) (snapshot : LogSnapshot)
    (root : NamespaceRoot MetadataObjectId) : Except (GenerationError MetadataObjectId) Unit :=
  match snapshot.lastRecord with
  | some previous => verifyGenerationTransition read previous root
  | none =>
    require (root.inodeAllocationCursor ≠ 2 ∨ root.inodes ≠ []) .initialInodeReservationRequired

/-- `commit_verified_namespace_from_snapshot_tracked` after the root was staged under its
identity, up to the record that it appends. -/
def commitVerifiedNamespace (digests : Digests) (supportedPolicy : PolicySetId)
    (read : MetadataReader MetadataObjectId) (snapshot : LogSnapshot) (rootId : MetadataObjectId)
    (root : NamespaceRoot MetadataObjectId) :
    Except (GenerationError MetadataObjectId) LogRecord := do
  verifyProposedRoot read snapshot root
  let fields : CommitFields MetadataObjectId := {
    generation := (snapshot.lastRecord.map fun previous => previous.generation).getD 0 + 1
    previousRecordHash := (snapshot.lastHash digests).getD CommitRecordHash.ZERO
    namespaceRoot := rootId
    policySet := supportedPolicy
    namespaceMutationCutoff := root.namespaceMutationSequence
    inodeReservationEnd := root.inodeReservationEnd
    inodeAllocationCursor := root.inodeAllocationCursor
    formatEpoch := CURRENT_REPOSITORY_FORMAT_EPOCH }
  -- The numbers of a root have 64 bits, so that only the generation can be exhausted.
  if fits : fields.generation < 256 ^ 8 ∧ fields.namespaceMutationCutoff < 256 ^ 8 ∧
      fields.inodeReservationEnd < 256 ^ 8 ∧ fields.inodeAllocationCursor < 256 ^ 8 then
    (CommitRecord.new fields ⟨fits.1, fits.2.1, fits.2.2.1, fits.2.2.2, rfl⟩).mapError
      .commitFormat
  else .error .generationExhausted

/-- The generations of a log to which commits were appended one after another, oldest first. A
record that reached the log counts, whether or not its append returned. What storage reads
back under the identity of the last root is that root. -/
inductive Committed (digests : Digests) (supportedPolicy : PolicySetId) :
    List (Generation MetadataObjectId) → Prop where
  | empty : Committed digests supportedPolicy []
  | commit {chain : List (Generation MetadataObjectId)}
      {read : MetadataReader MetadataObjectId} {snapshot : LogSnapshot}
      {rootId : MetadataObjectId} {root : NamespaceRoot MetadataObjectId} {record : LogRecord}
      (before : Committed digests supportedPolicy chain)
      (last : snapshot.lastRecord = chain.getLast?.map Prod.fst)
      (readsBack : ∀ previous ∈ chain.getLast?, ∀ found,
        readNamespaceRoot read previous.1.namespaceRoot = .ok found → found = previous.2)
      (accepted : commitVerifiedNamespace digests supportedPolicy read snapshot rootId root =
        .ok record) : Committed digests supportedPolicy (chain ++ [(record, root)])

/-- The namespace has the inode. -/
def Shows (root : NamespaceRoot ObjectId) (inode : ℕ) : Prop :=
  ∃ durable ∈ root.inodes, durable.inode = inode

instance (root : NamespaceRoot ObjectId) (inode : ℕ) : Decidable (Shows root inode) :=
  inferInstanceAs (Decidable (∃ durable ∈ root.inodes, durable.inode = inode))

theorem inode_lt_cursor (root : NamespaceRoot ObjectId) :
    ∀ durable ∈ root.inodes, durable.inode < root.inodeAllocationCursor := by
  have validated := root.validated
  simp only [validateNamespace, bind_ok, require_ok, not_or, not_not] at validated
  rcases validated with ⟨_, ⟨_, _, _, lastBelow, increasing, _⟩, _⟩
  rw [isChain_iff_pairwise] at increasing
  intro durable mem
  rcases eq_nil_or_concat root.inodes with none | ⟨front, last, split⟩
  · simp [none] at mem
  · rw [concat_eq_append] at split
    have below : last.inode < root.inodeAllocationCursor := by
      by_contra above
      exact lastBelow ⟨last, by simp [split], not_lt.mp above⟩
    rw [split] at mem increasing
    rcases mem_append.mp mem with earlier | same
    · rw [map_append, pairwise_append] at increasing
      have less := increasing.2.2 _ (mem_map_of_mem earlier) last.inode (by simp)
      omega
    · rwa [mem_singleton.mp same]

/-- What a later generation owes to an earlier one: below the cursor of the earlier one it
shows only what that one showed, and no inode went back. -/
structure Inherits (earlier later : Generation ObjectId) : Prop where
  cursor : earlier.1.inodeAllocationCursor ≤ later.1.inodeAllocationCursor
  shown : ∀ durable ∈ later.2.inodes, durable.inode < earlier.1.inodeAllocationCursor →
    ∃ old ∈ earlier.2.inodes, old.inode = durable.inode ∧
      old.mutationSequence ≤ durable.mutationSequence

theorem Inherits.trans {first second third : Generation ObjectId}
    (earlier : Inherits first second) (later : Inherits second third) : Inherits first third where
  cursor := earlier.cursor.trans later.cursor
  shown := by
    intro durable mem below
    rcases later.shown durable mem (below.trans_le earlier.cursor) with
      ⟨middle, inMiddle, sameMiddle, sequenceMiddle⟩
    rcases earlier.shown middle inMiddle (sameMiddle ▸ below) with ⟨old, inOld, same, sequence⟩
    exact ⟨old, inOld, same.trans sameMiddle, sequence.trans sequenceMiddle⟩

/-- A generation whose record carries the numbers of its root. -/
abbrev Matching (generation : Generation ObjectId) : Prop :=
  recordMatchesNamespaceRoot generation.1 generation.2 = true

/-- The root of a generation advances the generation before it. -/
abbrev Follows (previous next : Generation ObjectId) : Prop :=
  RootAdvances previous next.2

theorem RootAdvances.inherits {previous next : Generation ObjectId}
    (follows : Follows previous next) (matching : Matching next) : Inherits previous next where
  cursor := (recordMatchesNamespaceRoot_iff.mp matching).2.2 ▸ follows.cursor
  shown durable mem below := by
    rcases follows.inodes durable mem with fresh | ⟨old, inPrevious, same⟩
    · omega
    · exact ⟨old, inPrevious, same, follows.sequences durable mem old inPrevious same⟩

/-- Along a chain of generations, oldest first, a number that went away stays away, a new one
comes out of the reservation that was durable before it, and no inode goes back. -/
structure NeverReuses (chain : List (Generation ObjectId)) : Prop where
  stays_absent {i j k inode : ℕ} {first second third : Generation ObjectId} :
    i < j → j < k → chain[i]? = some first → chain[j]? = some second →
    chain[k]? = some third → Shows first.2 inode → ¬ Shows second.2 inode →
    ¬ Shows third.2 inode
  fresh {i j inode : ℕ} {first before second : Generation ObjectId} :
    i < j + 1 → chain[i]? = some first → chain[j]? = some before →
    chain[j + 1]? = some second → Shows second.2 inode → ¬ Shows first.2 inode →
    first.1.inodeAllocationCursor ≤ inode ∧ inode < before.1.inodeReservationEnd
  monotone {i j : ℕ} {first second : Generation ObjectId} {old new : DurableInode ObjectId} :
    i < j → chain[i]? = some first → chain[j]? = some second → old ∈ first.2.inodes →
    new ∈ second.2.inodes → old.inode = new.inode →
    old.mutationSequence ≤ new.mutationSequence

section Chains

variable {chain : List (Generation ObjectId)}

/-- The relation composes, so that it holds between any two generations of the chain. -/
theorem pairwise_inherits (matching : ∀ generation ∈ chain, Matching generation)
    (follows : chain.IsChain Follows) : chain.Pairwise Inherits := by
  have transitive : IsTrans _ (@Inherits ObjectId) := ⟨fun _ _ _ => Inherits.trans⟩
  rw [← isChain_iff_pairwise]
  induction chain with
  | nil => exact List.IsChain.nil
  | cons previous rest ih =>
    rw [isChain_cons] at follows ⊢
    refine ⟨fun next inHead => (follows.1 next inHead).inherits ?_, ih ?_ follows.2⟩
    · exact matching next (mem_cons_of_mem _ (mem_of_mem_head? inHead))
    · exact fun generation mem => matching generation (mem_cons_of_mem _ mem)

theorem inherits_of_lt (pairwise : chain.Pairwise Inherits) {i j : ℕ}
    {earlier later : Generation ObjectId} (order : i < j)
    (atEarlier : chain[i]? = some earlier) (atLater : chain[j]? = some later) :
    Inherits earlier later := by
  rw [getElem?_eq_some_iff] at atEarlier atLater
  rcases atEarlier with ⟨inBounds, rfl⟩
  rcases atLater with ⟨inBounds', rfl⟩
  exact pairwise_iff_getElem.mp pairwise i j inBounds inBounds' order

theorem neverReuses_of_follows (matching : ∀ generation ∈ chain, Matching generation)
    (follows : chain.IsChain Follows) : NeverReuses chain := by
  have pairwise := pairwise_inherits matching follows
  constructor
  case stays_absent =>
    rintro i j k inode first second third order later atFirst atSecond atThird
      ⟨old, inOld, rfl⟩ absent ⟨new, inNew, same⟩
    have below := inode_lt_cursor first.2 old inOld
    rw [(recordMatchesNamespaceRoot_iff.mp
      (matching first (mem_of_getElem? atFirst))).2.2, ← same] at below
    have cursor := (inherits_of_lt pairwise order atFirst atSecond).cursor
    rcases (inherits_of_lt pairwise later atSecond atThird).shown new inNew
      (below.trans_le cursor) with ⟨shown, inShown, equal, _⟩
    exact absent ⟨shown, inShown, equal.trans same⟩
  case fresh =>
    rintro i j inode first before second order atFirst atBefore atSecond ⟨new, inNew, rfl⟩ absent
    constructor
    · by_contra below
      rcases (inherits_of_lt pairwise order atFirst atSecond).shown new inNew
        (not_le.mp below) with ⟨shown, inShown, equal, _⟩
      exact absent ⟨shown, inShown, equal⟩
    · rw [getElem?_eq_some_iff] at atBefore atSecond
      rcases atBefore with ⟨_, rfl⟩
      rcases atSecond with ⟨inBounds, rfl⟩
      exact (inode_lt_cursor _ new inNew).trans_le
        (isChain_iff_getElem.mp follows j inBounds).reserved
  case monotone =>
    intro i j first second old new order atFirst atSecond inOld inNew same
    have below := inode_lt_cursor first.2 old inOld
    rw [(recordMatchesNamespaceRoot_iff.mp
      (matching first (mem_of_getElem? atFirst))).2.2, same] at below
    rcases (inherits_of_lt pairwise order atFirst atSecond).shown new inNew below with
      ⟨shown, inShown, equal, sequence⟩
    rwa [inj_on_of_nodup_map (inodes_nodup _) inOld inShown
      (same.trans equal.symm)]

end Chains

variable {digests : Digests} {supportedPolicy : PolicySetId}

theorem commitVerifiedNamespace_spec {read : MetadataReader MetadataObjectId}
    {snapshot : LogSnapshot} {rootId : MetadataObjectId} {root : NamespaceRoot MetadataObjectId}
    {record : LogRecord}
    (accepted : commitVerifiedNamespace digests supportedPolicy read snapshot rootId root =
      .ok record) : Matching (record, root) ∧ ∀ previous ∈ snapshot.lastRecord, ∃ previousRoot,
      readNamespaceRoot read previous.namespaceRoot = .ok previousRoot ∧
        Follows (previous, previousRoot) (record, root) := by
  simp only [commitVerifiedNamespace, bind_ok] at accepted
  rcases accepted with ⟨_, verified, accepted⟩
  split at accepted
  · simp only [CommitRecord.new, CommitRecord.newDecoded] at accepted
    constructor
    · refine recordMatchesNamespaceRoot_iff.mpr ?_
      split at accepted <;> try split at accepted <;> try split at accepted
      all_goals cases accepted
      exact ⟨rfl, rfl, rfl⟩
    · intro previous last
      rw [verifyProposedRoot, Option.mem_def.mp last] at verified
      simp only [verifyGenerationTransition, writerPredecessorRoot, bind_ok, pure_ok] at verified
      rcases verified with ⟨_, ⟨previousRoot, readable, _, _, rfl⟩, transition⟩
      exact ⟨previousRoot, readable, verifyGenerationTransitionPair_ok.mp transition⟩
  · cases accepted

theorem Committed.chained {chain : List (Generation MetadataObjectId)}
    (committed : Committed digests supportedPolicy chain) :
    (∀ generation ∈ chain, Matching generation) ∧ chain.IsChain Follows := by
  induction committed with
  | empty => simp
  | commit before last readsBack accepted ih =>
    rcases commitVerifiedNamespace_spec accepted with ⟨matching, follows⟩
    constructor
    · intro generation mem
      rcases mem_append.mp mem with earlier | new
      · exact ih.1 generation earlier
      · rwa [mem_singleton.mp new]
    · refine isChain_append.mpr ⟨ih.2, List.IsChain.singleton _, ?_⟩
      intro previous inChain next inNew
      obtain rfl : _ = next := by simpa using inNew
      have inLog : previous.1 ∈ _ := last ▸ Option.mem_map_of_mem Prod.fst inChain
      rcases follows previous.1 inLog with ⟨found, readable, transition⟩
      rwa [readsBack previous inChain found readable] at transition

theorem Accepted.chained {read : MetadataReader ObjectId} {previous : Option (Generation ObjectId)}
    {accepted : List (CommitRecord ObjectId)} (holds : Accepted read previous accepted) :
    ∃ roots, List.Forall₂ (RootOf read) accepted roots ∧
      (∀ generation ∈ accepted.zip roots, Matching generation) ∧
      (previous.toList ++ accepted.zip roots).IsChain Follows := by
  induction holds with
  | @nil previous => exact ⟨[], .nil, by simp, by cases previous <;> simp⟩
  | @cons previous record root rest rootOf follows later ih =>
    rcases ih with ⟨roots, readable, matching, chained⟩
    refine ⟨root :: roots, .cons rootOf readable, ?_, ?_⟩
    · exact forall_mem_cons.mpr ⟨((rootOf_iff.mp rootOf).2), matching⟩
    · cases previous with
      | none => exact chained
      | some pair =>
        exact isChain_cons_cons.mpr ⟨follows, chained⟩

/-- Along a committed chain, and along what recovery accepts of any log, a number that is gone
does not come back. -/
theorem inode_numbers_never_reused (digests : Digests) (supportedPolicy : PolicySetId) :
    (∀ chain, Committed digests supportedPolicy chain → NeverReuses chain) ∧
      ∀ (read : MetadataReader ObjectId) (records accepted : List (CommitRecord ObjectId)),
        validateRecoveryTransitionPrefix supportedPolicy read records = .ok accepted →
        ∃ roots, List.Forall₂ (RootOf read) accepted roots ∧ NeverReuses (accepted.zip roots) := by
  constructor
  · intro chain committed
    exact neverReuses_of_follows committed.chained.1 committed.chained.2
  · intro read records accepted returned
    simp only [validateRecoveryTransitionPrefix, bind_ok] at returned
    rcases returned with ⟨_, _, scanned⟩
    rcases acceptRecords_spec scanned with ⟨_, _, holds, _⟩
    rcases holds.chained with ⟨roots, readable, matching, chained⟩
    exact ⟨roots, readable, neverReuses_of_follows matching chained⟩

section Sample

def sampleGeneration (index : Fin 4) : Generation MetadataObjectId :=
  (sampleCommit index, sampleRoot index)

theorem readNamespaceRoot_sampleStore : ∀ index : Fin 4,
    readNamespaceRoot sampleStore (sampleCommit index).namespaceRoot = .ok (sampleRoot index) := by
  decide +kernel

theorem Committed.next {chain : List (Generation MetadataObjectId)} {index next : Fin 4}
    (committed : Committed sampleDigests sampleId (chain ++ [sampleGeneration index]))
    (following : index.val + 1 = next.val) :
    Committed sampleDigests sampleId
      (chain ++ [sampleGeneration index] ++ [sampleGeneration next]) := by
  have accepted : ∀ index next : Fin 4, index.val + 1 = next.val →
      commitVerifiedNamespace sampleDigests sampleId sampleStore
        (segment sampleDigests 0 (sampleLog.take (index + 1)) [])
        (sampleCommit next).namespaceRoot (sampleRoot next) = .ok (sampleCommit next) := by
    decide +kernel
  have last : ∀ index : Fin 4,
      (sampleLog.take (index + 1)).getLast? = some (sampleCommit index) := by
    decide
  refine Committed.commit committed ?_ ?_ (accepted index next following)
  · rw [getLast?_concat]
    exact last index
  · intro previous isLast found readable
    obtain rfl : sampleGeneration index = previous := by simpa using isLast
    rw [sampleGeneration, readNamespaceRoot_sampleStore, Except.ok.injEq] at readable
    exact readable.symm

def sampleChain : List (Generation MetadataObjectId) :=
  (List.finRange 4).map sampleGeneration

theorem committed_sampleChain : Committed sampleDigests sampleId sampleChain := by
  have first : Committed sampleDigests sampleId ([] ++ [sampleGeneration 0]) :=
    @Committed.commit _ _ [] sampleStore (LogSnapshot.empty 0) _ _ _ .empty rfl (by simp) rfl
  exact ((first.next rfl).next rfl).next rfl

theorem accept_sampleLog :
    validateRecoveryTransitionPrefix sampleId sampleStore sampleLog = .ok sampleLog := by
  decide +kernel

end Sample

/-- The file of the second generation is gone in the third and stays away; both the commits and
the forward scan of recovery make the chain. -/
theorem inode_numbers_never_reused_of_sample :
    (Shows (sampleRoot 1) 2 ∧ ¬ Shows (sampleRoot 2) 2 ∧ NeverReuses sampleChain ∧
      ¬ Shows (sampleRoot 3) 2) ∧
    ∃ roots, List.Forall₂ (RootOf sampleStore) sampleLog roots ∧
      NeverReuses (sampleLog.zip roots) := by
  have created : Shows (sampleRoot 1) 2 := by decide
  have removed : ¬ Shows (sampleRoot 2) 2 := by decide
  have never := (@inode_numbers_never_reused MetadataObjectId sampleDigests sampleId).1 _
    committed_sampleChain
  have absent : ¬ Shows (sampleRoot 3) 2 :=
    @never.stays_absent 1 2 3 2 (sampleGeneration 1) (sampleGeneration 2) (sampleGeneration 3)
      (by decide) (by decide) rfl rfl rfl created removed
  exact ⟨⟨created, removed, never, absent⟩,
    (inode_numbers_never_reused sampleDigests sampleId).2 sampleStore sampleLog _ accept_sampleLog⟩

end Fastdup.Store
