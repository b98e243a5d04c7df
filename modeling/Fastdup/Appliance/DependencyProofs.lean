import Fastdup.Store.Maintenance.Online

/-!
# Publication claims and generation proofs

Publishers claim a Chunk before they write it, so that it is written once. What is published or
reused is remembered as a proof of the Active commit epoch; a checkpoint freezes these proofs and
drops them when its commit is complete. All calls run under one lock. A call that waits for a
publication leaves the state as it is and runs again later.

An epoch that reuses a Location has to hold a DATA reference guard until its commit, so that the
garbage collection does not retire the Container. The reuse that `claim_publication` finds in the
Frozen epoch brings no guard to the Active one.

The arena of a proof map is a list in the order of admission, its hash table is `get`. The
Historical cache and the trace, which the calls feed after the lock is released, are left out.
-/

namespace Fastdup.Appliance

open Library Checked Format Store.Maintenance Function Option Finset

def MAX_ONLINE_DEPENDENCY_PROOFS_V1 : ℕ := 65536

abbrev ProofKey := ChunkId × ℕ

def proofKey (entry : ExactIndexEntry) : ProofKey := (entry.chunkId, entry.logicalLength)

/-- The assertions of the proof set. -/
inductive ProofAssertion where
  | arenaKey
  | arenaBounded
  | frozenGeneration
  | newFreezeOwned
  | canceledBudget
  | commitOwned
  | locationPerClaim
  | activeLocation
  | keyMatches
  | claimOwned
  | claimUnproven
  | claimReleased
  | publicationBudget
  deriving DecidableEq, Repr

/-- How a Frozen proof was admitted. -/
inductive HistoricalProofAdmission where
  | published
  | exactReuse
  deriving DecidableEq, Repr

/-- How a proof comes in: its Chunk was written, its Location was selected from the index, or it
is a proof of another epoch or of the history. -/
inductive OnlineProofAdmission where
  | published
  | exactReuse
  | touch
  deriving DecidableEq, Repr

def OnlineProofAdmission.historical : OnlineProofAdmission → HistoricalProofAdmission
  | .published => .published
  | .exactReuse | .touch => .exactReuse

/-- The verified Location of a Chunk, and how it was admitted. -/
structure GenerationProof where
  entry : ExactIndexEntry
  admission : HistoricalProofAdmission
  deriving DecidableEq

abbrev GenerationProofMap := List GenerationProof

/-- What a publisher that asks for a Chunk is told. -/
inductive PublicationClaim where
  | existing (entry : ExactIndexEntry)
  | acquired
  deriving DecidableEq

namespace GenerationProofMap

/-- The lookup in the hash table. -/
def get (proofs : GenerationProofMap) (key : ProofKey) : Option GenerationProof :=
  proofs.find? fun proof => decide (proofKey proof.entry = key)

/-- An exact reuse stays one when its proof is replaced. -/
def insert (proofs : GenerationProofMap) (key : ProofKey) (proof : GenerationProof) :
    Except ProofAssertion GenerationProofMap := do
  require (key ≠ proofKey proof.entry) .arenaKey
  if (proofs.get key).isSome then
    return proofs.map fun previous =>
      if proofKey previous.entry ≠ key then previous
      else if previous.admission = .exactReuse then { proof with admission := .exactReuse }
      else proof
  else do
    require (¬ proofs.length < MAX_ONLINE_DEPENDENCY_PROOFS_V1) .arenaBounded
    return proofs ++ [proof]

/-- At the capacity a new dependency is not admitted. -/
def admitProof (count : ℕ) (proofs : GenerationProofMap) (key : ProofKey)
    (proof : GenerationProof) : Except ProofAssertion GenerationProofMap :=
  if count ≥ MAX_ONLINE_DEPENDENCY_PROOFS_V1 ∧ (proofs.get key).isNone then .ok proofs
  else proofs.insert key proof

end GenerationProofMap

open GenerationProofMap

variable {Guard : Type}

/-- The two live epochs: their proofs, their guards, and the keys that are being published. -/
structure GenerationProofState (Guard : Type) where
  active : GenerationProofMap
  frozen : Option GenerationProofMap
  activeReferences : Option Guard
  frozenReferences : Option Guard
  publishing : Finset ProofKey

namespace GenerationProofState

/-- The number of Frozen proofs. -/
def frozenProofs (state : GenerationProofState Guard) : ℕ := (state.frozen.getD []).length

/-- The two epochs share the capacity. -/
def remember (state : GenerationProofState Guard) (key : ProofKey) (proof : GenerationProof)
    (frozen : Bool) : Except ProofAssertion (GenerationProofState Guard) :=
  let count := state.active.length + state.frozenProofs
  if frozen then
    match state.frozen with
    | none => .error .frozenGeneration
    | some target => do
        let target ← admitProof count target key proof
        return { state with frozen := some target }
  else do
    let active ← admitProof count state.active key proof
    return { state with active }

/-- An epoch keeps the first guard it is given, also when it has no room for the proof. An Active
proof waits for the publication of its key. -/
def rememberGenerationWithReferences (state : GenerationProofState Guard) (entry : ExactIndexEntry)
    (admission : OnlineProofAdmission) (frozen : Bool) (references : Option Guard) :
    Except ProofAssertion (GenerationProofState Guard) := do
  require (entry.transition ≠ .active) .activeLocation
  if frozen = false ∧ proofKey entry ∈ state.publishing then return state
  let state :=
    if frozen then { state with frozenReferences := state.frozenReferences <|> references }
    else { state with activeReferences := state.activeReferences <|> references }
  state.remember (proofKey entry) ⟨entry, admission.historical⟩ frozen

/-- The Active epoch becomes the Frozen one, unless a failed commit left one behind. -/
def freezeForCommit (state : GenerationProofState Guard) : GenerationProofState Guard × Bool :=
  if state.frozen.isSome then (state, false)
  else ({ state with active := [], frozen := some state.active, activeReferences := none,
                     frozenReferences := state.activeReferences }, true)

/-- The order in which the proofs move back is not visible. -/
def cancelNewFreeze (state : GenerationProofState Guard) (newlyFrozen : Bool) :
    Except ProofAssertion (GenerationProofState Guard) :=
  if newlyFrozen then
    match state.frozen with
    | none => .error .newFreezeOwned
    | some frozen => do
        let active ← frozen.foldlM (fun active proof =>
          if (get active (proofKey proof.entry)).isNone then
            active.insert (proofKey proof.entry) proof
          else .ok active) state.active
        require (¬ active.length ≤ MAX_ONLINE_DEPENDENCY_PROOFS_V1) .canceledBudget
        return { state with active, frozen := none, frozenReferences := none,
                            activeReferences := state.activeReferences <|> state.frozenReferences }
  else .ok state

/-- The commit is visible: the Frozen epoch gives up its proofs and its guard. -/
def completeFrozen (state : GenerationProofState Guard) :
    Except ProofAssertion (GenerationProofState Guard) := do
  require state.frozen.isNone .commitOwned
  return { state with frozen := none, frozenReferences := none }

/-- One pass through the loop of `claim_publication`, `none` where it waits. A proof of the Frozen
epoch is returned behind a call of `remember_active` with `touch` and without a guard. -/
def claimPublication (state : GenerationProofState Guard) (key : ProofKey) :
    Option PublicationClaim :=
  match get state.active key, get (state.frozen.getD []) key with
  | some proof, _ => some (.existing proof.entry)
  | none, some proof =>
    if key ∈ state.publishing then none else some (.existing proof.entry)
  | none, none => if key ∈ state.publishing then none else some .acquired

/-- One Location and the claim that it fulfils. -/
def finishEntry (state : GenerationProofState Guard) (pair : ExactIndexEntry × ProofKey) :
    Except ProofAssertion (GenerationProofState Guard) := do
  require (pair.1.transition ≠ .active) .activeLocation
  require (proofKey pair.1 ≠ pair.2) .keyMatches
  require (pair.2 ∉ state.publishing) .claimOwned
  require (get state.active pair.2).isSome .claimUnproven
  state.remember pair.2 ⟨pair.1, .published⟩ false

/-- A claim is released by its owner. -/
def releaseClaim (publishing : Finset ProofKey) (key : ProofKey) :
    Except ProofAssertion (Finset ProofKey) := do
  require (key ∉ publishing) .claimReleased
  return publishing.erase key

/-- All Locations of a publisher become Active proofs, then its claims are released. -/
def finishPublications (state : GenerationProofState Guard) (entries : List ExactIndexEntry)
    (claimed : List ProofKey) : Except ProofAssertion (GenerationProofState Guard) := do
  require (entries.length ≠ claimed.length) .locationPerClaim
  let state ← (entries.zip claimed).foldlM finishEntry state
  let publishing ← claimed.foldlM releaseClaim state.publishing
  require (¬ state.active.length + state.frozenProofs ≤ MAX_ONLINE_DEPENDENCY_PROOFS_V1)
    .publicationBudget
  return { state with publishing }

/-- The publisher failed: its claims are free again. -/
def abandonPublications (state : GenerationProofState Guard) (claimed : List ProofKey) :
    Except ProofAssertion (GenerationProofState Guard) := do
  let publishing ← claimed.foldlM releaseClaim state.publishing
  return { state with publishing }

end GenerationProofState

/-- Where the one checkpoint is: it has frozen the proofs, newly or not, or a cut is selected. -/
inductive CheckpointPhase where
  | idle
  | opened (newlyFrozen : Bool)
  | committing
  deriving DecidableEq

/-- The proof set with the claims of each publisher. `activeReuse` and `frozenReuse` note that an
exact reuse was admitted to the epoch, be it by a touch or beyond the capacity. -/
structure OnlineDependencyProofs (Guard : Type) where
  generation : GenerationProofState Guard
  claimed : ℕ → List ProofKey
  phase : CheckpointPhase
  activeReuse : Bool
  frozenReuse : Bool

/-- The calls of the publishers and of the one checkpoint, each under the lock. -/
inductive ProofCall (Guard : Type) where
  | claim (publisher : ℕ) (key : ProofKey)
  | finish (publisher : ℕ) (entries : List ExactIndexEntry)
  | abandon (publisher : ℕ)
  | rememberActive (entry : ExactIndexEntry) (admission : OnlineProofAdmission)
      (references : Option Guard)
  | rememberFrozen (entry : ExactIndexEntry) (admission : OnlineProofAdmission)
      (references : Option Guard)
  | freeze
  | select
  | cancel (newlyFrozen : Bool)
  | complete
  | fail

namespace OnlineDependencyProofs

/-- No proofs, no claims, no checkpoint. -/
def new : OnlineDependencyProofs Guard where
  generation := ⟨[], none, none, none, ∅⟩
  claimed _ := []
  phase := .idle
  activeReuse := false
  frozenReuse := false

/-- One call; an assertion that fires is the error. -/
def step (proofs : OnlineDependencyProofs Guard) :
    ProofCall Guard → Except ProofAssertion (OnlineDependencyProofs Guard)
  | .claim publisher key =>
    if proofs.generation.claimPublication key = some .acquired then
      .ok { proofs with
        generation := { proofs.generation with
          publishing := insert key proofs.generation.publishing }
        claimed := Function.update proofs.claimed publisher (proofs.claimed publisher ++ [key]) }
    else .ok proofs
  | .finish publisher entries => do
      let generation ← proofs.generation.finishPublications entries (proofs.claimed publisher)
      return { proofs with generation, claimed := Function.update proofs.claimed publisher [] }
  | .abandon publisher => do
      let generation ← proofs.generation.abandonPublications (proofs.claimed publisher)
      return { proofs with generation, claimed := Function.update proofs.claimed publisher [] }
  | .rememberActive entry admission references => do
      let generation ← proofs.generation.rememberGenerationWithReferences entry admission false
        references
      return { proofs with
        generation
        activeReuse := proofs.activeReuse ||
          decide (admission ≠ .published ∧ proofKey entry ∉ proofs.generation.publishing) }
  | .rememberFrozen entry admission references => do
      let generation ← proofs.generation.rememberGenerationWithReferences entry admission true
        references
      return { proofs with
        generation, frozenReuse := proofs.frozenReuse || decide (admission ≠ .published) }
  | .freeze =>
    let (generation, newlyFrozen) := proofs.generation.freezeForCommit
    .ok { proofs with
      generation
      phase := .opened newlyFrozen
      activeReuse := proofs.activeReuse && !newlyFrozen
      frozenReuse := cond newlyFrozen proofs.activeReuse proofs.frozenReuse }
  | .select => .ok { proofs with phase := .committing }
  | .cancel newlyFrozen => do
      let generation ← proofs.generation.cancelNewFreeze newlyFrozen
      return { proofs with
        generation
        phase := .idle
        activeReuse := proofs.activeReuse || (newlyFrozen && proofs.frozenReuse)
        frozenReuse := proofs.frozenReuse && !newlyFrozen }
  | .complete => do
      let generation ← proofs.generation.completeFrozen
      return { proofs with generation, phase := .idle, frozenReuse := false }
  | .fail => .ok { proofs with phase := .idle }

/-- Calls one after the other; an assertion ends them. -/
def run (proofs : OnlineDependencyProofs Guard) (calls : List (ProofCall Guard)) :
    Except ProofAssertion (OnlineDependencyProofs Guard) :=
  calls.foldlM step proofs

/-- What the callers keep to. A publisher finishes with one ACTIVE Location for each of its
claims; the checkpoint remembers Frozen proofs only once its cut is selected, and cancels a freeze
only before that. -/
def Permitted (proofs : OnlineDependencyProofs Guard) : ProofCall Guard → Prop
  | .claim _ _ => True
  | .finish publisher entries =>
    entries.map proofKey = proofs.claimed publisher ∧ ∀ entry ∈ entries, entry.transition = .active
  | .abandon _ => True
  | .rememberActive entry _ _ => entry.transition = .active
  | .rememberFrozen entry _ _ => entry.transition = .active ∧ proofs.phase = .committing
  | .freeze => proofs.phase = .idle
  | .select => ∃ newlyFrozen, proofs.phase = .opened newlyFrozen
  | .cancel newlyFrozen => proofs.phase = .opened newlyFrozen
  | .complete => proofs.phase = .opened true ∨ proofs.phase = .committing
  | .fail => proofs.phase = .committing

instance (proofs : OnlineDependencyProofs Guard) :
    ∀ call : ProofCall Guard, Decidable (proofs.Permitted call)
  | .claim _ _ | .abandon _ => inferInstanceAs (Decidable True)
  | .finish _ _ | .rememberFrozen _ _ _ => inferInstanceAs (Decidable (_ ∧ _))
  | .rememberActive _ _ _ | .freeze | .cancel _ | .fail => inferInstanceAs (Decidable (_ = _))
  | .select => inferInstanceAs (Decidable (∃ _ : Bool, _))
  | .complete => inferInstanceAs (Decidable (_ ∨ _))

/-- An exact reuse is admitted only where its epoch has a guard or is given one. -/
def BringsGuard (proofs : OnlineDependencyProofs Guard) : ProofCall Guard → Prop
  | .rememberActive entry admission references =>
    admission = .published ∨ proofKey entry ∈ proofs.generation.publishing ∨
      (proofs.generation.activeReferences <|> references).isSome
  | .rememberFrozen _ admission references =>
    admission = .published ∨ (proofs.generation.frozenReferences <|> references).isSome
  | _ => True

instance (proofs : OnlineDependencyProofs Guard) :
    ∀ call : ProofCall Guard, Decidable (proofs.BringsGuard call)
  | .rememberActive _ _ _ | .rememberFrozen _ _ _ => inferInstanceAs (Decidable (_ ∨ _))
  | .claim _ _ | .finish _ _ | .abandon _ | .freeze | .select | .cancel _ | .complete | .fail =>
    inferInstanceAs (Decidable True)

/-- Every call of the run is made where it may be. -/
def Along (may : OnlineDependencyProofs Guard → ProofCall Guard → Prop)
    (proofs : OnlineDependencyProofs Guard) : List (ProofCall Guard) → Prop
  | [] => True
  | call :: rest =>
    may proofs call ∧
      match proofs.step call with
      | .ok next => Along may next rest
      | .error _ => True

instance decidableAlong (may : OnlineDependencyProofs Guard → ProofCall Guard → Prop)
    [∀ proofs call, Decidable (may proofs call)] (proofs : OnlineDependencyProofs Guard) :
    ∀ calls, Decidable (Along may proofs calls)
  | [] => inferInstanceAs (Decidable True)
  | call :: rest =>
    match stepped : proofs.step call with
    | .ok next =>
      have := decidableAlong may next rest
      decidable_of_iff (may proofs call ∧ Along may next rest) (by simp only [Along, stepped])
    | .error _ => decidable_of_iff (may proofs call) (by simp only [Along, stepped, and_true])

/-- An epoch with an exact reuse holds a guard. -/
def Guarded (proofs : OnlineDependencyProofs Guard) : Prop :=
  (proofs.activeReuse → proofs.generation.activeReferences.isSome) ∧
    (proofs.frozenReuse → proofs.generation.frozenReferences.isSome)

/-- Every state that the run passes is guarded. -/
def GuardedAlong (proofs : OnlineDependencyProofs Guard) (calls : List (ProofCall Guard)) : Prop :=
  ∀ before, before <+: calls → ∀ reached, proofs.run before = .ok reached → reached.Guarded

/-- A claimed key has one owner and no Active proof, and the proofs keep to their common
budget. -/
structure Sound (proofs : OnlineDependencyProofs Guard) : Prop where
  exclusive : ∀ left right key, key ∈ proofs.claimed left → key ∈ proofs.claimed right →
    left = right
  nodup : ∀ publisher, (proofs.claimed publisher).Nodup
  owned : ∀ publisher, ∀ key ∈ proofs.claimed publisher, key ∈ proofs.generation.publishing
  unproven : ∀ key ∈ proofs.generation.publishing, get proofs.generation.active key = none
  budget : proofs.generation.active.length + proofs.generation.frozenProofs ≤
    MAX_ONLINE_DEPENDENCY_PROOFS_V1
  epoch : proofs.phase ≠ .idle → proofs.generation.frozen.isSome
  cancelable : proofs.phase = .opened true → ∀ key ∈ proofs.generation.publishing,
    get (proofs.generation.frozen.getD []) key = none

end OnlineDependencyProofs

section Maps

variable {proofs : GenerationProofMap} {key other : ProofKey} {proof : GenerationProof}

theorem insert_succeeds (same : key = proofKey proof.entry)
    (room : (proofs.get key).isNone → proofs.length < MAX_ONLINE_DEPENDENCY_PROOFS_V1) :
    ∃ after, proofs.insert key proof = .ok after ∧ after.length ≤ proofs.length + 1 ∧
      ((proofs.get key).isSome → after.length = proofs.length) ∧
      ∀ other ≠ key, after.get other = proofs.get other := by
  rw [GenerationProofMap.insert, require, if_neg (not_not.mpr same), ok_bind]
  by_cases known : (proofs.get key).isSome
  · rw [if_pos known]
    refine ⟨_, rfl, by simp, fun _ => by simp, ?_⟩
    intro other ne
    -- The replaced proof keeps its key, so that the search for another key passes it by.
    rw [GenerationProofMap.get, List.find?_map, GenerationProofMap.get]
    have keys : (fun proof : GenerationProof => decide (proofKey proof.entry = other)) ∘
        (fun previous => if proofKey previous.entry ≠ key then previous
          else if previous.admission = .exactReuse then { proof with admission := .exactReuse }
          else proof) = fun proof => decide (proofKey proof.entry = other) := by
      funext previous
      by_cases replaced : proofKey previous.entry = key
      · by_cases reuse : previous.admission = .exactReuse <;>
          simp [replaced, reuse, same ▸ ne.symm, ne.symm]
      · simp [replaced]
    rw [keys]
    cases found : proofs.find? fun proof => decide (proofKey proof.entry = other) with
    | none => rfl
    | some previous =>
      have named : proofKey previous.entry = other := by simpa using List.find?_some found
      simp [named, ne]
  · rw [if_neg known, require, if_neg (not_not.mpr (room (by simpa using known))), ok_bind]
    refine ⟨_, rfl, by simp, fun isKnown => absurd isKnown known, ?_⟩
    intro other ne
    simp [GenerationProofMap.get, List.find?_append, ← same, ne.symm]

theorem admitProof_succeeds {count : ℕ} (same : key = proofKey proof.entry)
    (counted : proofs.length ≤ count) (budget : count ≤ MAX_ONLINE_DEPENDENCY_PROOFS_V1) :
    ∃ after, admitProof count proofs key proof = .ok after ∧
      after.length + count ≤ proofs.length + MAX_ONLINE_DEPENDENCY_PROOFS_V1 ∧
      ∀ other ≠ key, after.get other = proofs.get other := by
  unfold admitProof
  by_cases full : count ≥ MAX_ONLINE_DEPENDENCY_PROOFS_V1 ∧ (proofs.get key).isNone
  · rw [if_pos full]
    exact ⟨proofs, rfl, by omega, fun _ _ => rfl⟩
  · rw [if_neg full]
    have room : (proofs.get key).isNone → count < MAX_ONLINE_DEPENDENCY_PROOFS_V1 :=
      fun new => not_le.mp fun reached => full ⟨reached, new⟩
    rcases insert_succeeds same fun new => counted.trans_lt (room new) with
      ⟨after, inserted, longer, kept, others⟩
    refine ⟨after, inserted, ?_, others⟩
    by_cases known : (proofs.get key).isSome
    · have := kept known
      omega
    · have := room (by simpa using known)
      omega

/-- The proofs that move back fit, and none of them has a key that neither side had. -/
theorem moveBack_succeeds {frozen active : GenerationProofMap}
    (budget : active.length + frozen.length ≤ MAX_ONLINE_DEPENDENCY_PROOFS_V1) :
    ∃ after, frozen.foldlM (fun active proof => if (get active (proofKey proof.entry)).isNone then
          active.insert (proofKey proof.entry) proof
        else .ok active) active = (.ok after : Except ProofAssertion GenerationProofMap) ∧
      after.length ≤ active.length + frozen.length ∧
      ∀ key, get active key = none → get frozen key = none → get after key = none := by
  induction frozen generalizing active with
  | nil => exact ⟨active, rfl, le_refl _, fun _ absent _ => absent⟩
  | cons proof rest ih =>
    rw [List.length_cons] at budget
    have moved : ∃ next, (if (get active (proofKey proof.entry)).isNone then
          active.insert (proofKey proof.entry) proof else .ok active) = .ok next ∧
        next.length ≤ active.length + 1 ∧
        ∀ other ≠ proofKey proof.entry, get next other = get active other := by
      split
      · rcases @insert_succeeds active _ proof rfl (fun _ => by omega) with
          ⟨next, inserted, longer, _, others⟩
        exact ⟨next, inserted, longer, others⟩
      · exact ⟨active, rfl, Nat.le_succ _, fun _ _ => rfl⟩
    rcases moved with ⟨next, stepped, longer, others⟩
    rcases @ih next (by omega) with ⟨after, folded, bounded, absent⟩
    refine ⟨after, ?_, by rw [List.length_cons]; omega, ?_⟩
    · rw [List.foldlM_cons, stepped, ok_bind, folded]
    · intro key notActive notFrozen
      rw [GenerationProofMap.get, List.find?_cons] at notFrozen
      split at notFrozen
      · cases notFrozen
      · rename_i ne
        have apart : key ≠ proofKey proof.entry := fun same => by simp [same] at ne
        exact absent key ((others key apart).trans notActive) notFrozen

end Maps

namespace GenerationProofState

variable {state : GenerationProofState Guard} {entry : ExactIndexEntry}
  {admission : HistoricalProofAdmission}

theorem claimPublication_acquired {key : ProofKey} :
    state.claimPublication key = some .acquired ↔ get state.active key = none ∧
      get (state.frozen.getD []) key = none ∧ key ∉ state.publishing := by
  unfold claimPublication
  cases get state.active key <;> cases get (state.frozen.getD []) key <;> simp

theorem remember_active_succeeds
    (budget : state.active.length + state.frozenProofs ≤ MAX_ONLINE_DEPENDENCY_PROOFS_V1) :
    ∃ active, state.remember (proofKey entry) ⟨entry, admission⟩ false = .ok { state with active } ∧
      active.length + state.frozenProofs ≤ MAX_ONLINE_DEPENDENCY_PROOFS_V1 ∧
      ∀ other ≠ proofKey entry, get active other = get state.active other := by
  rcases @admitProof_succeeds state.active _ ⟨entry, admission⟩
    (state.active.length + state.frozenProofs) rfl (Nat.le_add_right _ _) budget with
    ⟨active, admitted, bounded, others⟩
  refine ⟨active, ?_, by omega, others⟩
  simp only [remember, Bool.false_eq_true, if_false, admitted, ok_bind]
  rfl

theorem remember_frozen_succeeds {target : GenerationProofMap} (frozen : state.frozen = some target)
    (budget : state.active.length + state.frozenProofs ≤ MAX_ONLINE_DEPENDENCY_PROOFS_V1) :
    ∃ target', state.remember (proofKey entry) ⟨entry, admission⟩ true =
        .ok { state with frozen := some target' } ∧
      state.active.length + target'.length ≤ MAX_ONLINE_DEPENDENCY_PROOFS_V1 := by
  have length : state.frozenProofs = target.length := by rw [frozenProofs, frozen, getD_some]
  rcases @admitProof_succeeds target _ ⟨entry, admission⟩
    (state.active.length + state.frozenProofs) rfl (by omega) budget with
    ⟨target', admitted, bounded, _⟩
  refine ⟨target', ?_, by omega⟩
  simp only [remember, if_true, frozen, admitted, ok_bind]
  rfl

theorem releaseClaims_succeeds {claimed : List ProofKey} {publishing : Finset ProofKey}
    (nodup : claimed.Nodup) (owned : ∀ key ∈ claimed, key ∈ publishing) :
    claimed.foldlM releaseClaim publishing = .ok (publishing \ claimed.toFinset) := by
  induction claimed generalizing publishing with
  | nil =>
    rw [List.toFinset_nil, sdiff_empty]
    rfl
  | cons key rest ih =>
    rw [List.nodup_cons] at nodup
    rw [List.foldlM_cons, releaseClaim, require,
      if_neg (not_not.mpr (owned key List.mem_cons_self)), ok_bind]
    refine (ih nodup.2 ?_).trans ?_
    · intro other mem
      refine mem_erase.mpr ⟨?_, owned other (List.mem_cons_of_mem _ mem)⟩
      exact fun same => nodup.1 (same ▸ mem)
    · rw [List.toFinset_cons, sdiff_insert, erase_sdiff_comm]

/-- The Locations of a publisher become Active proofs, each under its own claim. -/
theorem finishEntries_succeeds {entries : List ExactIndexEntry}
    (nodup : (entries.map proofKey).Nodup) (ready : ∀ entry ∈ entries, entry.transition = .active ∧
      proofKey entry ∈ state.publishing ∧ get state.active (proofKey entry) = none)
    (budget : state.active.length + state.frozenProofs ≤ MAX_ONLINE_DEPENDENCY_PROOFS_V1) :
    ∃ active, (entries.zip (entries.map proofKey)).foldlM finishEntry state =
        .ok { state with active } ∧
      active.length + state.frozenProofs ≤ MAX_ONLINE_DEPENDENCY_PROOFS_V1 ∧
      ∀ key ∉ entries.map proofKey, get active key = get state.active key := by
  induction entries generalizing state with
  | nil => exact ⟨state.active, rfl, budget, fun _ _ => rfl⟩
  | cons entry rest ih =>
    rw [List.map_cons, List.nodup_cons] at nodup
    rcases ready entry List.mem_cons_self with ⟨isActive, owned, unproven⟩
    rcases @remember_active_succeeds _ state entry .published budget with
      ⟨active, remembered, bounded, others⟩
    have stepped : finishEntry state (entry, proofKey entry) = .ok { state with active } := by
      simp [finishEntry, require, isActive, owned, unproven, remembered]
    have later : ∀ other ∈ rest, other.transition = .active ∧
        proofKey other ∈ state.publishing ∧ get active (proofKey other) = none := by
      intro other mem
      rcases ready other (List.mem_cons_of_mem _ mem) with ⟨otherActive, claimed, absent⟩
      refine ⟨otherActive, claimed, ?_⟩
      rw [others _ fun same => nodup.1 (same ▸ List.mem_map_of_mem mem), absent]
    rcases @ih { state with active } nodup.2 later bounded with
      ⟨final, folded, finalBounded, kept⟩
    refine ⟨final, ?_, finalBounded, ?_⟩
    · rw [List.map_cons, List.zip_cons_cons, List.foldlM_cons, stepped, ok_bind, folded]
    · intro key notIn
      rw [List.map_cons, List.mem_cons, not_or] at notIn
      rw [kept key notIn.2]
      exact others key notIn.1

end GenerationProofState

namespace OnlineDependencyProofs

open GenerationProofState

variable {proofs : OnlineDependencyProofs Guard}

/-- A publisher gives up its claims; the Active proofs change under these keys only. -/
theorem Sound.release (sound : proofs.Sound) (publisher : ℕ) {active : GenerationProofMap}
    (budget : active.length + proofs.generation.frozenProofs ≤ MAX_ONLINE_DEPENDENCY_PROOFS_V1)
    (kept : ∀ key ∉ proofs.claimed publisher, get active key = get proofs.generation.active key) :
    Sound { proofs with
      generation := { proofs.generation with
        active
        publishing := proofs.generation.publishing \ (proofs.claimed publisher).toFinset }
      claimed := update proofs.claimed publisher [] } := by
  have claims : ∀ other key, key ∈ update proofs.claimed publisher [] other →
      other ≠ publisher ∧ key ∈ proofs.claimed other := by
    intro other key mem
    by_cases same : other = publisher
    · simp [same] at mem
    · rw [update_of_ne same] at mem
      exact ⟨same, mem⟩
  refine { sound with exclusive := ?_, nodup := ?_, owned := ?_, unproven := ?_, budget := budget,
                      cancelable := ?_ }
  · intro left right key inLeft inRight
    exact sound.exclusive left right key (claims left key inLeft).2 (claims right key inRight).2
  · intro other
    by_cases same : other = publisher
    · simp [same]
    · simpa [update_of_ne same] using sound.nodup other
  · intro other key mem
    rcases claims other key mem with ⟨ne, inOther⟩
    refine mem_sdiff.mpr ⟨sound.owned other key inOther, ?_⟩
    rw [List.mem_toFinset]
    exact fun inOwn => ne (sound.exclusive other publisher key inOther inOwn)
  · intro key mem
    rw [mem_sdiff, List.mem_toFinset] at mem
    rw [kept key mem.2]
    exact sound.unproven key mem.1
  · intro opened key mem
    exact sound.cancelable opened key (mem_sdiff.mp mem).1

/-- A guard is kept, so that an admission to a guarded epoch leaves it guarded, and the first one
to an epoch without a guard has to bring it. -/
theorem guarded_admission {held added : Option Guard} {reuse : Bool} {admitted : Prop}
    [Decidable admitted] (guarded : reuse = true → held.isSome) :
    ((reuse || decide admitted) = true → (held <|> added).isSome) ↔
      ¬ admitted ∨ (held <|> added).isSome := by
  cases held with
  | some guard => simp
  | none =>
    have unused : reuse = false := by simpa using guarded
    simp [unused, imp_iff_not_or]

theorem sound_new : (new : OnlineDependencyProofs Guard).Sound := by
  constructor <;> simp [new, frozenProofs]

/-- A permitted call fires no assertion and keeps the claims and the budget. Out of a guarded state
it leads to a guarded one exactly when the reuse that it admits has a guard. -/
theorem Sound.step (sound : proofs.Sound) {call : ProofCall Guard}
    (permitted : proofs.Permitted call) : ∃ next, proofs.step call = .ok next ∧ next.Sound ∧
      (proofs.Guarded → (next.Guarded ↔ proofs.BringsGuard call)) := by
  cases call with
  | claim publisher key =>
    by_cases free : proofs.generation.claimPublication key = some .acquired
    · refine ⟨_, if_pos free, ?_, fun guarded => iff_of_true guarded trivial⟩
      rcases claimPublication_acquired.mp free with ⟨notActive, notFrozen, unclaimed⟩
      have claims : ∀ other found,
          found ∈ Function.update proofs.claimed publisher (proofs.claimed publisher ++ [key])
            other ↔ found ∈ proofs.claimed other ∨ other = publisher ∧ found = key := by
        intro other found
        by_cases same : other = publisher <;> simp [same, Function.update_of_ne]
      have fresh : ∀ other, key ∉ proofs.claimed other :=
        fun other mem => unclaimed (sound.owned other key mem)
      refine { sound with exclusive := ?_, nodup := ?_, owned := ?_, unproven := ?_,
                          cancelable := ?_ }
      · intro left right found inLeft inRight
        rcases (claims left found).mp inLeft with before | ⟨rfl, rfl⟩ <;>
          rcases (claims right found).mp inRight with after | ⟨rfl, same⟩
        · exact sound.exclusive left right found before after
        · exact absurd (same ▸ before) (fresh left)
        · exact absurd after (fresh right)
        · rfl
      · intro other
        by_cases same : other = publisher
        · have appended := (sound.nodup publisher).concat (fresh publisher)
          simpa [same] using appended
        · simpa [Function.update_of_ne same] using sound.nodup other
      · intro other found mem
        rcases (claims other found).mp mem with earlier | ⟨_, rfl⟩
        · exact mem_insert_of_mem (sound.owned other found earlier)
        · exact mem_insert_self _ _
      · exact (forall_mem_insert _ _ _).mpr ⟨notActive, sound.unproven⟩
      · intro opened
        exact (forall_mem_insert _ _ _).mpr ⟨notFrozen, sound.cancelable opened⟩
    · exact ⟨proofs, if_neg free, sound, fun guarded => iff_of_true guarded trivial⟩
  | finish publisher entries =>
    rcases permitted with ⟨claimed, allActive⟩
    have owned := sound.owned publisher
    have nodup := sound.nodup publisher
    rw [← claimed] at owned nodup
    rcases @finishEntries_succeeds _ proofs.generation entries nodup
      (fun entry mem => ⟨allActive entry mem, owned _ (List.mem_map_of_mem mem),
        sound.unproven _ (owned _ (List.mem_map_of_mem mem))⟩) sound.budget with
      ⟨active, finished, bounded, kept⟩
    rw [claimed] at owned nodup kept finished
    have length : entries.length = (proofs.claimed publisher).length := by
      rw [← claimed, List.length_map]
    refine ⟨_, ?_, sound.release publisher bounded kept,
      fun guarded => iff_of_true guarded trivial⟩
    rw [frozenProofs] at bounded
    simp only [OnlineDependencyProofs.step, finishPublications, require, length, finished,
      ne_eq, not_true, if_false, ok_bind, releaseClaims_succeeds nodup owned, frozenProofs, bounded]
    rfl
  | abandon publisher =>
    refine ⟨_, ?_, sound.release publisher sound.budget fun _ _ => rfl,
      fun guarded => iff_of_true guarded trivial⟩
    simp only [OnlineDependencyProofs.step, abandonPublications, ok_bind,
      releaseClaims_succeeds (sound.nodup publisher) (sound.owned publisher)]
    rfl
  | rememberActive entry admission references =>
    by_cases waits : proofKey entry ∈ proofs.generation.publishing
    · refine ⟨proofs, ?_, sound, fun guarded => iff_of_true guarded (.inr (.inl waits))⟩
      simp [OnlineDependencyProofs.step, rememberGenerationWithReferences, require, waits,
        show entry.transition = .active from permitted]
    · rcases @remember_active_succeeds _
        { proofs.generation with
          activeReferences := proofs.generation.activeReferences <|> references }
        entry admission.historical sound.budget with ⟨active, remembered, bounded, others⟩
      apply Exists.intro
      constructor
      · simp only [OnlineDependencyProofs.step, rememberGenerationWithReferences, require, waits,
          show entry.transition = .active from permitted, ne_eq, not_true, if_false, ok_bind,
          and_false, Bool.false_eq_true, remembered]
        rfl
      constructor
      · refine { sound with unproven := ?_, budget := bounded }
        intro key mem
        exact (others key fun same => waits (same ▸ mem)).trans (sound.unproven key mem)
      · intro guarded
        refine (and_iff_left guarded.2).trans ((guarded_admission guarded.1).trans ?_)
        simp [BringsGuard, waits]
  | rememberFrozen entry admission references =>
    rcases permitted with ⟨isActive, committing⟩
    rcases isSome_iff_exists.mp (sound.epoch (by simp [committing])) with ⟨target, frozen⟩
    rcases @remember_frozen_succeeds _
      { proofs.generation with
        frozenReferences := proofs.generation.frozenReferences <|> references }
      entry admission.historical target frozen sound.budget with ⟨target', remembered, bounded⟩
    apply Exists.intro
    constructor
    · simp only [OnlineDependencyProofs.step, rememberGenerationWithReferences, require,
        isActive, ne_eq, not_true, if_false, ok_bind, Bool.true_eq_false, false_and, if_true,
        remembered]
      rfl
    constructor
    · refine { sound with budget := bounded, epoch := fun _ => rfl, cancelable := ?_ }
      intro opened
      cases committing.symm.trans opened
    · intro guarded
      refine (and_iff_right guarded.1).trans ((guarded_admission guarded.2).trans ?_)
      simp [BringsGuard]
  | freeze =>
    simp only [OnlineDependencyProofs.step, freezeForCommit]
    by_cases frozen : proofs.generation.frozen.isSome
    · rw [if_pos frozen]
      refine ⟨_, rfl, { sound with epoch := fun _ => frozen, cancelable := nofun }, ?_⟩
      exact fun guarded => iff_of_true (by simpa [Guarded] using guarded) trivial
    · rw [if_neg frozen]
      refine ⟨_, rfl, ?_, fun guarded => iff_of_true (by simpa [Guarded] using guarded.1) trivial⟩
      refine { sound with unproven := fun _ _ => rfl, budget := ?_, epoch := fun _ => rfl,
                          cancelable := fun _ => sound.unproven }
      have budget := sound.budget
      simp only [frozenProofs, List.length_nil, getD_some] at budget ⊢
      omega
  | select =>
    rcases permitted with ⟨newlyFrozen, opened⟩
    refine ⟨_, rfl, { sound with epoch := ?_, cancelable := nofun },
      fun guarded => iff_of_true guarded trivial⟩
    exact fun _ => sound.epoch (by simp [opened])
  | cancel newlyFrozen =>
    cases newlyFrozen with
    | false =>
      refine ⟨_, rfl, { sound with epoch := (absurd rfl ·), cancelable := nofun }, ?_⟩
      exact fun guarded => iff_of_true (by simpa [Guarded] using guarded) trivial
    | true =>
      have opened : proofs.phase = .opened true := permitted
      rcases isSome_iff_exists.mp (sound.epoch (by simp [opened])) with
        ⟨target, frozen⟩
      have budget := sound.budget
      rw [frozenProofs, frozen, getD_some] at budget
      rcases moveBack_succeeds budget with ⟨active, moved, bounded, absent⟩
      have fits := bounded.trans budget
      apply Exists.intro
      constructor
      · simp only [OnlineDependencyProofs.step, cancelNewFreeze, if_true, frozen, moved, ok_bind,
          require, fits, not_true, if_false]
        rfl
      constructor
      · refine { sound with unproven := ?_, budget := fits, epoch := (absurd rfl ·),
                            cancelable := nofun }
        intro key mem
        have missing := sound.cancelable opened key mem
        rw [frozen] at missing
        exact absent key (sound.unproven key mem) missing
      · refine fun guarded => iff_of_true ⟨fun reused => ?_, by simp⟩ trivial
        rcases Bool.or_eq_true_iff.mp reused with active | moved
        · simp [guarded.1 active]
        · simp [guarded.2 moved]
  | complete =>
    have busy : proofs.phase ≠ .idle := by
      rcases permitted with opened | committing <;> simp [*]
    rcases isSome_iff_exists.mp (sound.epoch busy) with ⟨target, frozen⟩
    apply Exists.intro
    constructor
    · simp only [OnlineDependencyProofs.step, completeFrozen, frozen, isNone_some, require,
        Bool.false_eq_true, if_false, ok_bind]
      rfl
    refine ⟨{ sound with budget := ?_, epoch := (absurd rfl ·), cancelable := nofun },
      fun guarded => iff_of_true ⟨guarded.1, by simp⟩ trivial⟩
    exact (Nat.le_add_right _ _).trans sound.budget
  | fail =>
    exact ⟨_, rfl, { sound with epoch := (absurd rfl ·), cancelable := nofun },
      fun guarded => iff_of_true guarded trivial⟩

/-- A run is guarded throughout when it is so behind its first call. -/
theorem guardedAlong_cons {next : OnlineDependencyProofs Guard} {call : ProofCall Guard}
    {calls : List (ProofCall Guard)} (guarded : proofs.Guarded)
    (stepped : proofs.step call = .ok next) :
    proofs.GuardedAlong (call :: calls) ↔ next.GuardedAlong calls := by
  have behind : ∀ before, run proofs (call :: before) = run next before := fun before => by
    rw [run, List.foldlM_cons, stepped, ok_bind, run]
  constructor
  · intro always before initial reached returned
    exact always (call :: before) (List.cons_prefix_cons.mpr ⟨rfl, initial⟩) reached
      ((behind before).trans returned)
  · intro always before initial reached returned
    cases before with
    | nil =>
      cases returned
      exact guarded
    | cons first rest =>
      rcases List.cons_prefix_cons.mp initial with ⟨rfl, later⟩
      exact always rest later reached ((behind rest).symm.trans returned)

theorem along_cons {may : OnlineDependencyProofs Guard → ProofCall Guard → Prop}
    {next : OnlineDependencyProofs Guard} {call : ProofCall Guard} {calls : List (ProofCall Guard)}
    (stepped : proofs.step call = .ok next) :
    proofs.Along may (call :: calls) ↔ may proofs call ∧ next.Along may calls := by
  simp only [Along, stepped]

/-- The invariant along a run that no assertion ends. -/
theorem Sound.run (sound : proofs.Sound) {calls : List (ProofCall Guard)}
    (permitted : proofs.Along Permitted calls) :
    ∃ final, proofs.run calls = .ok final ∧ final.Sound := by
  induction calls generalizing proofs with
  | nil => exact ⟨proofs, rfl, sound⟩
  | cons call rest ih =>
    rcases sound.step permitted.1 with ⟨next, stepped, after, _⟩
    rcases ih after ((along_cons stepped).mp permitted).2 with ⟨final, returned, atEnd⟩
    refine ⟨final, ?_, atEnd⟩
    rw [OnlineDependencyProofs.run, List.foldlM_cons, stepped, ok_bind]
    exact returned

/-- The first reuse without a guard is where a run stops being guarded. -/
theorem Sound.guardedAlong_iff (sound : proofs.Sound) {calls : List (ProofCall Guard)}
    (permitted : proofs.Along Permitted calls) (guarded : proofs.Guarded) :
    proofs.GuardedAlong calls ↔ proofs.Along BringsGuard calls := by
  induction calls generalizing proofs with
  | nil =>
    refine iff_of_true (fun before initial reached returned => ?_) trivial
    cases List.prefix_nil.mp initial
    cases returned
    exact guarded
  | cons call rest ih =>
    rcases sound.step permitted.1 with ⟨next, stepped, after, leads⟩
    rw [guardedAlong_cons guarded stepped, along_cons stepped]
    have later := ((along_cons stepped).mp permitted).2
    by_cases brings : proofs.BringsGuard call
    · rw [ih after later ((leads guarded).mpr brings), and_iff_right brings]
    · refine iff_of_false (fun always => brings ((leads guarded).mp ?_)) (brings ·.1)
      exact always [] List.nil_prefix next rfl

/-- In every permitted run the claims are exclusive, no assertion fires and the budget is kept;
the epochs with an exact reuse hold a guard throughout exactly when no reuse is admitted to an
epoch that has none. -/
theorem publication_claims_sound {calls : List (ProofCall Guard)}
    (permitted : (new : OnlineDependencyProofs Guard).Along Permitted calls) :
    (∃ proofs, run (new : OnlineDependencyProofs Guard) calls = .ok proofs ∧ proofs.Sound) ∧
      ((new : OnlineDependencyProofs Guard).GuardedAlong calls ↔
        (new : OnlineDependencyProofs Guard).Along BringsGuard calls) :=
  ⟨sound_new.run permitted, sound_new.guardedAlong_iff permitted ⟨nofun, nofun⟩⟩

/-- A Location of a Chunk of one byte. -/
def sampleEntry (content : UInt8) : ExactIndexEntry where
  chunkId := ⟨content :: List.replicate 31 0, by simp⟩
  logicalLength := 1
  containerId := Bytes.Fixed.zero 16
  dependency := none
  transition := .active

/-- Two publishers and two checkpoints. The first claims two Chunks and the second finds one of
them claimed; a freeze is canceled under a claim; the second epoch reuses one Chunk by the index
and then one by a touch of the Frozen epoch. -/
def sampleCalls : List (ProofCall Unit) :=
  [.claim 0 (proofKey (sampleEntry 1)), .claim 1 (proofKey (sampleEntry 1)),
    .claim 0 (proofKey (sampleEntry 2)), .claim 1 (proofKey (sampleEntry 3)),
    .freeze, .cancel true, .finish 0 [sampleEntry 1, sampleEntry 2], .abandon 1,
    .freeze, .select, .rememberActive (sampleEntry 4) .exactReuse (some ()),
    .claim 1 (proofKey (sampleEntry 1)), .rememberActive (sampleEntry 1) .touch none,
    .claim 1 (proofKey (sampleEntry 5)), .complete, .freeze, .select, .fail,
    .finish 1 [sampleEntry 5], .freeze, .select, .complete]

theorem publication_claims_sound_on_sampleCalls :
    (∃ proofs, run (new : OnlineDependencyProofs Unit) sampleCalls = .ok proofs ∧ proofs.Sound) ∧
      (new : OnlineDependencyProofs Unit).GuardedAlong sampleCalls := by
  have ⟨runs, guards⟩ := @publication_claims_sound Unit sampleCalls (by decide)
  exact ⟨runs, guards.mpr (by decide)⟩

-- Without the order of the checkpoint a Frozen proof moves back under a claim, and the publisher
-- of the Chunk fails.
example : run (new : OnlineDependencyProofs Unit) [.freeze, .claim 0 (proofKey (sampleEntry 1)),
    .rememberFrozen (sampleEntry 1) .exactReuse none, .cancel true, .finish 0 [sampleEntry 1]] =
      .error .claimUnproven := rfl

/-- The Frozen epoch reuses a Chunk under its guard, and a publisher of the Active epoch finds the
proof. With the commit the guard is gone, while the Active epoch holds the reuse. -/
theorem touched_reuse_outlives_guard :
    let calls : List (ProofCall Unit) :=
      [.rememberActive (sampleEntry 1) .exactReuse (some ()), .freeze, .select,
        .claim 0 (proofKey (sampleEntry 1)), .rememberActive (sampleEntry 1) .touch none, .complete]
    (new : OnlineDependencyProofs Unit).Along Permitted calls ∧
      ((run new (calls.take 3)).toOption.bind (claimPublication ·.generation
        (proofKey (sampleEntry 1)))) = some (.existing (sampleEntry 1)) ∧
      ∃ proofs, run new calls = .ok proofs ∧
        get proofs.generation.active (proofKey (sampleEntry 1)) =
          some ⟨sampleEntry 1, .exactReuse⟩ ∧
        proofs.generation.activeReferences = none ∧ proofs.generation.frozenReferences = none := by
  refine ⟨by decide, by decide, _, rfl, by decide, rfl, rfl⟩

end OnlineDependencyProofs

end Fastdup.Appliance
