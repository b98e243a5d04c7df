import Fastdup.Store.Maintenance.Replacement

/-!
# Offline collection

A collection publishes the replacements of its plan, rebuilds the Exact Index without the victims
and removes them. What it keeps is judged on the Containers that are left: every dependent Record
has to find an independent copy of its Base, and every protected Chunk that could be decoded has
to stay so.

A Chunk of a mixed Container is not written again when a Container that is fully live holds it,
and that copy may be a dependent one. Collecting the mixed Container then takes away the only
independent copy of a Base.
-/

namespace Fastdup.Store.Maintenance

open Library Checked Format SealedContainer List

/-- What the other repositories answer during a collection: whether the plan belongs to this
profile, whether its Commit proof is still current at each of the three checks, and whether the
Exact Index could be rebuilt. -/
structure CollectionEnvironment where
  profileMatches : Bool
  proofCurrentBefore : Bool
  proofCurrentPublished : Bool
  proofCurrentIndexed : Bool
  rebuildExactIndex : Except MaintenanceError Unit

def CollectionEnvironment.undisturbed : CollectionEnvironment where
  profileMatches := true
  proofCurrentBefore := true
  proofCurrentPublished := true
  proofCurrentIndexed := true
  rebuildExactIndex := .ok ()

/-- The length of a published Container whose envelope is read once more. -/
def publishedLength (pool : Pool) (containerId : ContainerId) : Except MaintenanceError ℕ :=
  match pool.find? (fun container => decide (container.containerId = containerId)) with
  | some container => .ok container.fileLength
  | none => .error .missingContainer

/-- Unlinks the named Containers and returns their size and what is left. -/
def removeVerifiedPublished (pool : Pool) (containerIds : List ContainerId) :
    Except MaintenanceError (ℕ × Pool) := do
  let removedBytes ← containerIds.foldlM (fun total containerId => do
    let length ← publishedLength pool containerId
    checkedAdd .arithmeticOverflow total length) 0
  pure (removedBytes, pool.filter fun container => decide (container.containerId ∉ containerIds))

/-- Everything the plan gives up. -/
def removalCandidates (plan : ContainerGcInventory) : List ContainerId :=
  (plan.reclaimable ++ plan.compactionVictims).map SealedContainer.containerId

section Collecting

variable (writer : ReplacementWriter) (environment : CollectionEnvironment)
  (plan : ContainerGcInventory) (generation : ℕ) (pool : Pool)

/-- Replaces, excludes and removes the victims of a plan that has some. -/
def collectVictims : Except MaintenanceError Pool := do
  let published ← publishGcReplacementsUsing writer plan.replacementChunks pool generation
    (plan.compactionVictims.map SealedContainer.containerId)
  require (environment.proofCurrentPublished = false) .staleGcPlan
  require (∃ container ∈ plan.compactionVictims, container.containerId ∈
    plan.reclaimable.map SealedContainer.containerId) .assertion
  environment.rebuildExactIndex
  require (environment.proofCurrentIndexed = false) .staleGcPlan
  let (bytesRemoved, remaining) ← removeVerifiedPublished published.pool (removalCandidates plan)
  let expectedRemoved ← checkedAdd .arithmeticOverflow plan.reclaimableBytes
    plan.compactionVictimBytes
  require (bytesRemoved ≠ expectedRemoved) .assertion
  pure remaining

/-- Replaces and removes according to a plan, each step under its check. -/
def garbageCollect : Except MaintenanceError Pool := do
  require (environment.profileMatches = false) .gcPlanProfileMismatch
  require (environment.proofCurrentBefore = false) .staleGcPlan
  if plan.reclaimable = [] ∧ plan.compactionVictims = [] then pure pool
  else collectVictims writer environment plan generation pool

/-- Plans and collects in one call. -/
def scrubAndCollect (onlineChunks : OnlineChunks) : Except MaintenanceError Pool := do
  let plan ← planContainerGc onlineChunks pool
  garbageCollect writer environment plan generation pool

end Collecting

/-- The pool that is left decodes its dependent Records, and the protected Chunks that could be
decoded before. -/
def KeepsDecodable (onlineChunks : OnlineChunks) (pool remaining : Pool) : Prop :=
  remaining.Resolved ∧ ∀ chunk length, onlineChunks chunk = some length →
    pool.Decodable (chunk, length) → remaining.Decodable (chunk, length)

/-- A Base that a fully live Container needs and that some fully live Container holds has an
independent copy in one of them. -/
def KeepsBases (onlineChunks : OnlineChunks) (pool : Pool) : Prop :=
  ∀ container ∈ pool, FullyLive onlineChunks (storedDependentBases pool) container →
    ∀ base ∈ container.dependencies,
      (∃ holder ∈ pool, FullyLive onlineChunks (storedDependentBases pool) holder ∧
        ∃ length, (base.1, length) ∈ holder.chunks) →
      ∃ holder ∈ pool, FullyLive onlineChunks (storedDependentBases pool) holder ∧
        ∃ record ∈ holder.records, record.codec.Independent ∧ base ∈ record.chunks

variable {published : Publishing} {chunk : ChunkCopy}

section Keeping

variable {writer : ReplacementWriter} {environment : CollectionEnvironment}
  {plan : ContainerGcInventory} {generation : ℕ} {pool remaining : Pool}
  {onlineChunks : OnlineChunks} {victims : List SealedContainer} {container : SealedContainer}

theorem mem_removed_of_distinct (distinct : pool.Distinct)
    (known : ∀ victim ∈ victims, victim ∈ pool) (mem : container ∈ pool) :
    container.containerId ∈ victims.map SealedContainer.containerId ↔ container ∈ victims := by
  constructor
  · intro named
    rcases mem_map.mp named with ⟨victim, isVictim, same⟩
    rw [← inj_on_of_nodup_map distinct (known victim isVictim) mem same]
    exact isVictim
  · exact mem_map_of_mem

variable {required : Coverage}

section

variable {bytes : ℕ} (distinct : pool.Distinct) (known : ∀ victim ∈ victims, victim ∈ pool)
  (replaced : Replaced pool required published)
  (removed : removeVerifiedPublished published.pool (victims.map SealedContainer.containerId) =
    .ok (bytes, remaining))

include distinct known replaced removed

/-- What is left: the Containers that are no victims, and the replacements. -/
theorem mem_remaining (container : SealedContainer) : container ∈ remaining ↔
      (container ∈ pool ∧ container ∉ victims) ∨ container ∈ published.containers := by
  simp only [removeVerifiedPublished, bind_ok, pure_ok, Prod.mk.injEq] at removed
  rcases removed with ⟨_, _, _, rfl⟩
  rw [mem_filter, decide_eq_true_iff, replaced.gathered.onTop, mem_append]
  constructor
  · rintro ⟨old | new, kept⟩
    · exact .inl ⟨old, fun victim => kept ((mem_removed_of_distinct distinct known old).mpr victim)⟩
    · exact .inr new
  · rintro (⟨old, kept⟩ | new)
    · exact ⟨.inl old, fun named => kept ((mem_removed_of_distinct distinct known old).mp named)⟩
    · refine ⟨.inr new, ?_⟩
      intro named
      rcases mem_map.mp named with ⟨victim, isVictim, same⟩
      exact replaced.gathered.named container new victim (known victim isVictim) same.symm

omit distinct known replaced removed in
theorem required_of_dependency {base : ChunkCopy} (mem : container ∈ pool)
    (depends : base ∈ container.dependencies) :
    Required onlineChunks (storedDependentBases pool) base.1 :=
  .inr (mem_flatMap.mpr ⟨container, mem, mem_map_of_mem depends⟩)

omit distinct known replaced removed in
theorem Coverage.lookup_of_agrees (agrees : pool.Agrees)
    (lengths : required.StoredIn pool) (mem : container ∈ pool) (holds : chunk ∈ container.chunks)
    (wanted : chunk.1 ∈ required) :
    required.lookup chunk.1 = some chunk.2 := by
  rcases Option.isSome_iff_exists.mp (AList.lookup_isSome.mpr wanted) with ⟨length, found⟩
  rcases lengths chunk.1 length found with ⟨other, otherMem, otherHolds⟩
  have same : length = chunk.2 := agrees other otherMem container mem _ otherHolds _ holds rfl
  rw [found, same]

/-- What is left after victims went and replacements came. -/
structure Left (pool : Pool) (victims : List SealedContainer) (required : Coverage)
    (replacements : List SealedContainer) (remaining : Pool) : Prop where
  mem : ∀ container, container ∈ remaining ↔
    (container ∈ pool ∧ container ∉ victims) ∨ container ∈ replacements
  independent : ∀ container ∈ replacements, ∀ record ∈ container.records, record.codec.Independent
  requested : ∀ container ∈ replacements, ∀ chunk ∈ container.chunks,
    required.lookup chunk.1 = some chunk.2
  complete : ∀ chunk length, required.lookup chunk = some length →
    remaining.HasIndependent (chunk, length)

theorem left_of_replaced : Left pool victims required published.containers remaining where
  mem := mem_remaining distinct known replaced removed
  independent := replaced.gathered.independent
  requested := replaced.gathered.requested
  complete := by
    intro chunk length found
    apply (replaced.complete chunk length found).mono
    intro container member
    exact (mem_remaining distinct known replaced removed container).mpr (.inr member)

end

section Left

variable {replacements : List SealedContainer}
  (left : Left pool victims required replacements remaining)

include left

/-- A stored copy whose length every other copy shares is replaced with that length. -/
theorem Left.complete_of_mem (agrees : pool.Agrees)
    (lengths : required.StoredIn pool) {container : SealedContainer} (mem : container ∈ pool)
    (holds : chunk ∈ container.chunks) (wanted : chunk.1 ∈ required) :
    remaining.HasIndependent chunk :=
  left.complete chunk.1 chunk.2 (Coverage.lookup_of_agrees agrees lengths mem holds wanted)

theorem Left.decodable_of_kept
    (bases : ∀ container ∈ pool, container ∉ victims → ∀ base ∈ container.dependencies,
      remaining.HasIndependent base) {container : SealedContainer} (mem : container ∈ pool)
    (kept : container ∉ victims) (holds : chunk ∈ container.chunks) :
    remaining.Decodable chunk := by
  rcases mem_chunks.mp holds with ⟨record, recorded, held⟩
  refine ⟨container, (left.mem container).mpr (.inl ⟨mem, kept⟩), record, recorded, held, ?_⟩
  intro base dependent
  exact bases container mem kept base (mem_dependencies.mpr ⟨record, recorded, dependent⟩)

/-- It is enough to look at the Bases of what stays and at the protected Chunks of the victims. -/
theorem Left.keepsDecodable
    (bases : ∀ container ∈ pool, container ∉ victims → ∀ base ∈ container.dependencies,
      remaining.HasIndependent base)
    (chunks : ∀ chunk length, onlineChunks chunk = some length → ∀ victim ∈ pool, victim ∈ victims →
      (chunk, length) ∈ victim.chunks → remaining.Decodable (chunk, length)) :
    KeepsDecodable onlineChunks pool remaining := by
  constructor
  · intro container mem base depends
    rcases (left.mem container).mp mem with ⟨old, kept⟩ | new
    · exact bases container old kept base depends
    · rcases mem_dependencies.mp depends with ⟨record, recorded, dependent⟩
      have independent : record.codec.dependency = none :=
        left.independent container new record recorded
      rw [independent] at dependent
      cases dependent
  · rintro chunk length online ⟨container, mem, record, recorded, holds, _⟩
    have held := mem_chunks.mpr ⟨record, recorded, holds⟩
    by_cases victim : container ∈ victims
    · exact chunks chunk length online container mem victim held
    · exact left.decodable_of_kept bases mem victim held

end Left

section Offline

variable {replacements : List SealedContainer}

def planVictims (plan : ContainerGcInventory) : List SealedContainer :=
  plan.reclaimable ++ plan.compactionVictims

theorem planVictims_subset (planned : Planned onlineChunks pool plan) :
    ∀ victim ∈ planVictims plan, victim ∈ pool := by
  intro victim mem
  rcases mem_append.mp mem with unreachable | mixed
  · exact ((planned.reclaimable victim).mp unreachable).1
  · rcases planned.victims with ⟨none, _⟩ | ⟨partials, _⟩
    · rw [none] at mixed
      cases mixed
    · exact ((partials victim).mp mixed).1

theorem keepsDecodable_of_no_compaction (resolved : pool.Resolved)
    (planned : Planned onlineChunks pool plan) (none : plan.compactionVictims = [])
    (left : Left pool (planVictims plan) plan.replacementChunks replacements remaining) :
    KeepsDecodable onlineChunks pool remaining := by
  have unreachable : ∀ victim ∈ planVictims plan,
      Unreachable onlineChunks (storedDependentBases pool) victim := by
    intro victim mem
    rw [planVictims, none, append_nil] at mem
    exact ((planned.reclaimable victim).mp mem).2
  apply left.keepsDecodable
  · intro container mem _ base depends
    rcases resolved container mem base depends with ⟨holder, stored, record, recorded,
      independent, holds⟩
    refine ⟨holder, (left.mem holder).mpr (.inl ⟨stored, ?_⟩), record, recorded, independent, holds⟩
    intro victim
    exact unreachable holder victim base (mem_chunks.mpr ⟨record, recorded, holds⟩)
      (required_of_dependency mem depends)
  · intro chunk length online victim _ isVictim holds
    refine absurd (.inl ?_) (unreachable victim isVictim (chunk, length) holds)
    rw [online]
    rfl

/-- A collected plan whose mixed Containers are victims. -/
structure Compacted (onlineChunks : OnlineChunks) (pool : Pool) (plan : ContainerGcInventory) :
    Prop where
  victims : ∀ container, container ∈ planVictims plan ↔ container ∈ pool ∧
    ¬ FullyLive onlineChunks (storedDependentBases pool) container
  replaced : ∀ chunk, chunk ∈ plan.replacementChunks ↔
    (Required onlineChunks (storedDependentBases pool) chunk ∧ ∃ container ∈ pool,
      PartiallyLive onlineChunks (storedDependentBases pool) container ∧
        ∃ length, (chunk, length) ∈ container.chunks) ∧
    ¬ ∃ container ∈ pool, FullyLive onlineChunks (storedDependentBases pool) container ∧
        ∃ length, (chunk, length) ∈ container.chunks
  lengths : ∀ chunk length, plan.replacementChunks.lookup chunk = some length →
    ∃ container ∈ pool, (chunk, length) ∈ container.chunks

theorem compacted_of_planned (planned : Planned onlineChunks pool plan)
    (some : plan.compactionVictims ≠ []) : Compacted onlineChunks pool plan := by
  rcases planned.victims with ⟨none, _⟩ | ⟨partials, replaced⟩
  · exact absurd none some
  · refine ⟨?_, replaced, planned.lengths⟩
    intro container
    rw [planVictims, mem_append, planned.reclaimable, partials]
    constructor
    · rintro (⟨mem, unreachable⟩ | ⟨mem, mixed⟩)
      · exact ⟨mem, unreachable.not_fullyLive⟩
      · exact ⟨mem, mixed.not_fullyLive⟩
    · rintro ⟨mem, notFull⟩
      rcases liveness_cases onlineChunks (storedDependentBases pool) container with
        unreachable | mixed | full
      · exact .inl ⟨mem, unreachable⟩
      · exact .inr ⟨mem, mixed⟩
      · exact absurd full notFull

section Compaction

variable (compacted : Compacted onlineChunks pool plan)

include compacted

theorem Compacted.fullyLive (mem : container ∈ pool) (kept : container ∉ planVictims plan) :
    FullyLive onlineChunks (storedDependentBases pool) container := by
  by_contra notFull
  exact kept ((compacted.victims container).mpr ⟨mem, notFull⟩)

variable
  (left : Left pool (planVictims plan) plan.replacementChunks replacements remaining)

include left

theorem mem_remaining_of_fullyLive {container : SealedContainer} (mem : container ∈ pool)
    (full : FullyLive onlineChunks (storedDependentBases pool) container) : container ∈ remaining :=
  (left.mem container).mpr (.inl ⟨mem, fun victim =>
    ((compacted.victims container).mp victim).2 full⟩)

theorem fullyLive_or_replaced (agrees : pool.Agrees) {holder : SealedContainer}
    (mem : holder ∈ pool) (holds : chunk ∈ holder.chunks)
    (required : Required onlineChunks (storedDependentBases pool) chunk.1) :
    (∃ full ∈ pool, FullyLive onlineChunks (storedDependentBases pool) full ∧
      ∃ length, (chunk.1, length) ∈ full.chunks) ∨ remaining.HasIndependent chunk := by
  by_cases covered : ∃ full ∈ pool, FullyLive onlineChunks (storedDependentBases pool) full ∧
      ∃ length, (chunk.1, length) ∈ full.chunks
  · exact .inl covered
  · have mixed : PartiallyLive onlineChunks (storedDependentBases pool) holder := by
      rcases liveness_cases onlineChunks (storedDependentBases pool) holder with
        unreachable | mixed | full
      · exact absurd required (unreachable chunk holds)
      · exact mixed
      · exact absurd ⟨holder, mem, full, chunk.2, holds⟩ covered
    have wanted : chunk.1 ∈ plan.replacementChunks :=
      (compacted.replaced chunk.1).mpr ⟨⟨required, holder, mem, mixed, chunk.2, holds⟩, covered⟩
    exact .inr (left.complete_of_mem agrees compacted.lengths mem holds wanted)

theorem keepsDecodable_of_keepsBases (resolved : pool.Resolved) (agrees : pool.Agrees)
    (keeps : KeepsBases onlineChunks pool) : KeepsDecodable onlineChunks pool remaining := by
  have bases : ∀ container ∈ pool, container ∉ planVictims plan →
      ∀ base ∈ container.dependencies, remaining.HasIndependent base := by
    intro container mem kept base depends
    rcases (resolved container mem base depends).stores with ⟨holder, stored, holds⟩
    rcases fullyLive_or_replaced compacted left agrees stored holds
      (required_of_dependency mem depends) with covered | replaced
    · rcases keeps container mem (compacted.fullyLive mem kept) base depends covered with
        ⟨full, fullMem, isFull, record, recorded, independent, held⟩
      exact ⟨full, mem_remaining_of_fullyLive compacted left fullMem isFull, record, recorded,
        independent, held⟩
    · exact replaced
  apply left.keepsDecodable bases
  intro chunk length online victim mem _ holds
  have required : Required onlineChunks (storedDependentBases pool) chunk := by
    left
    rw [online]
    rfl
  rcases fullyLive_or_replaced compacted left agrees mem holds required with
    ⟨full, fullMem, isFull, other, held⟩ | replaced
  · have same : other = length := agrees full fullMem victim mem _ held _ holds rfl
    rw [same] at held
    exact left.decodable_of_kept bases fullMem
      (fun isVictim => ((compacted.victims full).mp isVictim).2 isFull) held
  · exact replaced.decodable

theorem keepsBases_of_keepsDecodable (kept : KeepsDecodable onlineChunks pool remaining) :
    KeepsBases onlineChunks pool := by
  intro container mem full base depends covered
  have stays := mem_remaining_of_fullyLive compacted left mem full
  rcases kept.1 container stays base depends with ⟨holder, stored, record, recorded, independent,
    holds⟩
  have held : base ∈ holder.chunks := mem_chunks.mpr ⟨record, recorded, holds⟩
  rcases (left.mem holder).mp stored with ⟨old, notVictim⟩ | new
  · exact ⟨holder, old, compacted.fullyLive old notVictim, record, recorded, independent, holds⟩
  · -- A replacement only holds Chunks that no fully live Container has.
    have wanted : base.1 ∈ plan.replacementChunks := by
      rw [← AList.lookup_isSome, left.requested holder new base held]
      rfl
    exact absurd covered ((compacted.replaced base.1).mp wanted).2

end Compaction

theorem left_of_collectVictims (distinct : pool.Distinct)
    (bounded : ∀ container ∈ pool, container.containerGeneration ≤ generation)
    (planned : Planned onlineChunks pool plan)
    (collected : collectVictims writer environment plan generation pool = .ok remaining) :
    ∃ replacements, Left pool (planVictims plan) plan.replacementChunks replacements remaining := by
  simp only [collectVictims, bind_ok, pure_ok] at collected
  rcases collected with ⟨published, publishes, _, _, _, _, _, _, _, _, ⟨bytes, rest⟩, removes, _, _,
    _, _, rfl⟩
  have replaced := publishGcReplacementsUsing_spec bounded publishes
  exact ⟨_, left_of_replaced distinct (planVictims_subset planned) replaced removes⟩

theorem garbageCollect_keeps_iff (distinct : pool.Distinct) (agrees : pool.Agrees)
    (resolved : pool.Resolved)
    (bounded : ∀ container ∈ pool, container.containerGeneration ≤ generation)
    (plans : planContainerGc onlineChunks pool = .ok plan)
    (collected : garbageCollect writer environment plan generation pool = .ok remaining) :
    KeepsDecodable onlineChunks pool remaining ↔
      plan.compactionVictims = [] ∨ KeepsBases onlineChunks pool := by
  have planned := planContainerGc_spec plans
  simp only [garbageCollect, bind_ok] at collected
  rcases collected with ⟨_, _, _, _, collected⟩
  split at collected
  · rename_i nothing
    rw [pure_ok] at collected
    subst collected
    exact iff_of_true ⟨resolved, fun _ _ _ decodable => decodable⟩ (.inl nothing.2)
  · rcases left_of_collectVictims distinct bounded planned collected with ⟨replacements, left⟩
    by_cases none : plan.compactionVictims = []
    · exact iff_of_true (keepsDecodable_of_no_compaction resolved planned none left) (.inl none)
    · have compacted := compacted_of_planned planned none
      constructor
      · intro kept
        exact .inr (keepsBases_of_keepsDecodable compacted left kept)
      · rintro (impossible | keeps)
        · exact absurd impossible none
        · exact keepsDecodable_of_keepsBases compacted left resolved agrees keeps

end Offline

end Keeping

end Fastdup.Store.Maintenance
