import Fastdup.Store.Error
import Fastdup.Store.Maintenance.Planning

/-!
# Verification of the required Chunks

Recovery asks whether the pool still yields every required Chunk. The structural gate collects the
dependent copies and looks for their Bases in a second pass; the content scan decodes the copies one
by one. Both pass over the Containers that are not RETIRING, here all intact, in the order of their
names. A required map lists its Chunks in their order. The Bases that a resolver remembers within
one Container are left out.
-/

namespace Fastdup.Store.Maintenance

open Library Checked Format List AList

/-- The entries of the Recovery Index in their order, each with its Record. -/
def SealedContainer.recoveryIndex (container : SealedContainer) :
    List (ChunkCopy × EncodingRecord) :=
  (container.records.flatMap fun record => record.chunks.map (·, record)).mergeSort
    fun left right => left.1.1.val < right.1.1.val ∨ left.1.1 = right.1.1 ∧ left.1.2 ≤ right.1.2

namespace Pool

/-- Retiring Containers do not count. -/
def selectable (pool : Pool) (retiring : List ContainerId) : Pool :=
  pool.filter (·.containerId ∉ retiring)

def candidates (pool : Pool) : List (ChunkCopy × EncodingRecord) :=
  pool.flatMap SealedContainer.recoveryIndex

def firstMissing : List (Σ _ : ChunkId, ℕ) → Except StoreError Unit
  | ⟨chunkId, logicalLength⟩ :: _ => .error (.missingVerifiedChunk chunkId logicalLength)
  | [] => .ok ()

/-- The first pass of the gate: the Chunks not yet seen in an independent Record, and the Bases of
the dependent copies. -/
def collectStructure (found : Coverage × List (ChunkId × ChunkCopy))
    (entry : ChunkCopy × EncodingRecord) : Coverage × List (ChunkId × ChunkCopy) :=
  if found.1.lookup entry.1.1 ≠ some entry.1.2 then found
  else match entry.2.codec.dependency with
    | some base => (found.1, (entry.1.1, base) :: found.2)
    | none => (found.1.erase entry.1.1, found.2.filter (·.1 ≠ entry.1.1))

/-- Looks every required Chunk up in the recovery indexes, and the Base of a dependent copy. -/
def verifyRequiredChunkStructure (pool : Pool) (retiring : List ContainerId)
    (required : Coverage) : Except StoreError Unit :=
  let chunks := (pool.selectable retiring).candidates
  let (missing, dependent) := chunks.foldl collectStructure (required, [])
  let available := (chunks.filter fun entry =>
    entry.2.codec.Independent ∧ entry.1 ∈ dependent.map Prod.snd).map Prod.fst
  firstMissing (missing.entries.filter fun entry =>
    ¬ ∃ choice ∈ dependent, choice.1 = entry.1 ∧ choice.2 ∈ available)

/-- The Chunks of a selected Record; the resolver looks for the Base of a dependent one. -/
def decodeCandidate (pool : Pool) (record : EncodingRecord) : Except StoreError (List ChunkCopy) :=
  match record.codec.dependency with
  | some base =>
    if pool.HasIndependent base then .ok record.chunks
    else .error (.missingVerifiedChunk base.1 base.2)
  | none => .ok record.chunks

def discharge (missing : Coverage) (chunk : ChunkCopy) : Coverage :=
  if missing.lookup chunk.1 = some chunk.2 then missing.erase chunk.1 else missing

/-- Decodes records until nothing is missing. -/
def scanRequiredRecords (pool : Pool) : List (ChunkCopy × EncodingRecord) → Coverage →
    Except StoreError Unit
  | [], missing => firstMissing missing.entries
  | (chunk, record) :: rest, missing =>
    if missing.lookup chunk.1 ≠ some chunk.2 then pool.scanRequiredRecords rest missing
    else do
      let missing := (← pool.decodeCandidate record).foldl discharge missing
      if missing.entries = [] then .ok () else pool.scanRequiredRecords rest missing

/-- The Records that the scan selects when all of them can be decoded: in the order of the entries,
each copy of a required Chunk that no selected Record has brought before. -/
def firstCopies : List (ChunkCopy × EncodingRecord) → Coverage → List EncodingRecord
  | [], _ => []
  | (chunk, record) :: rest, missing =>
    if missing.lookup chunk.1 ≠ some chunk.2 then firstCopies rest missing
    else record :: firstCopies rest (record.chunks.foldl discharge missing)

/-- Decodes a copy of every required Chunk. -/
def verifyRequiredChunks (pool : Pool) (retiring : List ContainerId) (required : Coverage) :
    Except StoreError Unit :=
  let pool := pool.selectable retiring
  if required.entries = [] then .ok () else pool.scanRequiredRecords pool.candidates required

section Scans

variable {pool : Pool} {chunk : ChunkCopy} {record : EncodingRecord} {required missing : Coverage}
  {entries : List (ChunkCopy × EncodingRecord)}

theorem mem_candidates : (chunk, record) ∈ pool.candidates ↔
    ∃ container ∈ pool, record ∈ container.records ∧ chunk ∈ record.chunks := by
  simp [candidates, SealedContainer.recoveryIndex, -Prod.exists]

theorem firstMissing_ok {missing : List (Σ _ : ChunkId, ℕ)} :
    firstMissing missing = .ok () ↔ missing = [] := by
  cases missing with
  | nil | cons entry rest => simp [firstMissing]

theorem lookup_erase_eq (missing : Coverage) (erased key : ChunkId) :
    (missing.erase erased).lookup key = if key = erased then none else missing.lookup key := by
  split_ifs with same
  · rw [same, lookup_erase]
  · exact lookup_erase_ne same

/-- What the first pass knows of the Chunks it still misses. -/
structure Collected (required : Coverage) (seen : List (ChunkCopy × EncodingRecord))
    (found : Coverage × List (ChunkId × ChunkCopy)) : Prop where
  missing : ∀ chunk : ChunkCopy, found.1.lookup chunk.1 = some chunk.2 ↔
    required.lookup chunk.1 = some chunk.2 ∧
      ∀ record, (chunk, record) ∈ seen → ¬ record.codec.Independent
  choices : ∀ chunk : ChunkCopy, found.1.lookup chunk.1 = some chunk.2 → ∀ base,
    (chunk.1, base) ∈ found.2 ↔ ∃ record, (chunk, record) ∈ seen ∧
      record.codec.dependency = some base

theorem collected (entries : List (ChunkCopy × EncodingRecord)) :
    Collected required entries (entries.foldl collectStructure (required, [])) := by
  induction entries using List.reverseRecOn with
  | nil => exact ⟨by simp, by simp⟩
  | append_singleton seen entry ih =>
    rw [foldl_append, foldl_cons, foldl_nil]
    generalize seen.foldl collectStructure (required, []) = found at ih
    rcases entry with ⟨chunk, record⟩
    unfold collectStructure
    split_ifs with absent
    · refine ⟨fun other => ?_, fun other held base => ?_⟩
      · have := ih.missing other
        grind
      · have := ih.choices other held base
        grind
    · cases codec : record.codec.dependency with
      | some base =>
        refine ⟨fun other => ?_, fun other held base => ?_⟩
        · have := ih.missing other
          grind [Codec.Independent]
        · have := ih.choices other held base
          grind
      | none =>
        refine ⟨fun other => ?_, fun other held base => ?_⟩
        · have := ih.missing other
          have := lookup_erase_eq found.1 chunk.1 other.1
          grind [Codec.Independent]
        · rw [lookup_erase_eq] at held
          have := ih.choices other
          grind

theorem verifyRequiredChunkStructure_ok {retiring : List ContainerId} :
    pool.verifyRequiredChunkStructure retiring required = .ok () ↔
      ∀ chunk : ChunkCopy, required.lookup chunk.1 = some chunk.2 →
        Decodable (pool.selectable retiring) chunk := by
  rw [verifyRequiredChunkStructure]
  generalize pool.selectable retiring = pool
  have found := @collected required pool.candidates
  dsimp only
  generalize pool.candidates.foldl collectStructure (required, []) = pair at found ⊢
  simp only [firstMissing_ok, filter_eq_nil_iff, decide_eq_true_eq, not_not, mem_map, mem_filter]
  constructor
  · intro covered chunk needed
    by_cases independent : ∃ record, (chunk, record) ∈ pool.candidates ∧ record.codec.Independent
    · rcases independent with ⟨record, listed, independent⟩
      rcases mem_candidates.mp listed with ⟨container, mem, recorded, holds⟩
      exact HasIndependent.decodable ⟨container, mem, record, recorded, independent, holds⟩
    · have missing := (found.missing chunk).mpr
        ⟨needed, fun record listed alone => independent ⟨record, listed, alone⟩⟩
      rcases covered _ (mem_lookup_iff.mp missing) with
        ⟨⟨_, _⟩, choice, rfl, ⟨_, other⟩, ⟨stored, alone, _⟩, rfl⟩
      rcases (found.choices chunk missing _).mp choice with ⟨record, listed, dependency⟩
      rcases mem_candidates.mp listed with ⟨container, mem, recorded, holds⟩
      rcases mem_candidates.mp stored with ⟨home, present, kept, inside⟩
      refine ⟨container, mem, record, recorded, holds, fun base named => ?_⟩
      cases dependency.symm.trans named
      exact ⟨home, present, other, kept, alone, inside⟩
  · rintro decodable ⟨chunkId, logicalLength⟩ mem
    have missing := mem_lookup_iff.mpr mem
    have needed := (found.missing (chunkId, logicalLength)).mp missing
    rcases decodable _ needed.1 with ⟨container, mem, record, recorded, holds, resolved⟩
    have listed := mem_candidates.mpr ⟨container, mem, recorded, holds⟩
    cases dependency : record.codec.dependency with
    | none => exact absurd dependency (needed.2 record listed)
    | some base =>
      rcases resolved base dependency with ⟨home, present, other, kept, alone, inside⟩
      have choice := (found.choices _ missing base).mpr ⟨record, listed, dependency⟩
      exact ⟨_, choice, rfl, (base, other),
        ⟨mem_candidates.mpr ⟨home, present, kept, inside⟩, alone, _, choice, rfl⟩, rfl⟩

theorem decodeCandidate_ok {chunks : List ChunkCopy} :
    pool.decodeCandidate record = .ok chunks ↔ chunks = record.chunks ∧
      ∀ base, record.codec.dependency = some base → HasIndependent pool base := by
  unfold decodeCandidate
  cases record.codec.dependency with
  | none => simp [eq_comm]
  | some base => simp [ite_ok, and_comm]

theorem lookup_foldl_discharge (chunks : List ChunkCopy) :
    (chunks.foldl discharge missing).lookup chunk.1 = some chunk.2 ↔
      missing.lookup chunk.1 = some chunk.2 ∧ chunk ∉ chunks := by
  induction chunks generalizing missing with
  | nil => simp
  | cons first rest ih =>
    rw [foldl_cons, ih, discharge]
    split_ifs
    · rw [lookup_erase_eq]
      grind
    · grind

theorem scan_of_nothing_missing (nothing : missing.entries = []) :
    pool.scanRequiredRecords entries missing = .ok () := by
  induction entries with
  | nil => exact firstMissing_ok.mpr nothing
  | cons entry rest ih =>
    rw [scanRequiredRecords, if_pos]
    · exact ih
    · intro held
      have mem := mem_lookup_iff.mp held
      rw [nothing] at mem
      cases mem

/-- The scan succeeds exactly when the selected Records bring what is missing and every one of them
is decoded. -/
theorem scanRequiredRecords_ok : pool.scanRequiredRecords entries missing = .ok () ↔
    (∀ chunk : ChunkCopy, missing.lookup chunk.1 = some chunk.2 →
      ∃ record ∈ firstCopies entries missing, chunk ∈ record.chunks) ∧
    ∀ record ∈ firstCopies entries missing,
      ∀ base, record.codec.dependency = some base → HasIndependent pool base := by
  induction entries generalizing missing with
  | nil =>
    simp only [scanRequiredRecords, firstMissing_ok, firstCopies, not_mem_nil, false_and,
      exists_false, imp_false, IsEmpty.forall_iff, implies_true, and_true]
    constructor
    · intro nothing chunk held
      have mem := mem_lookup_iff.mp held
      rw [nothing] at mem
      cases mem
    · intro absent
      refine eq_nil_iff_forall_not_mem.mpr fun entry mem => ?_
      exact absent (entry.1, entry.2) (mem_lookup_iff.mpr mem)
  | cons entry rest ih =>
    rcases entry with ⟨first, record⟩
    rw [scanRequiredRecords, firstCopies]
    by_cases held : missing.lookup first.1 = some first.2
    · rw [if_neg (not_not.mpr held), if_neg (not_not.mpr held)]
      -- An empty rest ends the scan early, which is what scanning on would return.
      have ends : ∀ missing : Coverage, (if missing.entries = [] then .ok ()
          else pool.scanRequiredRecords rest missing) = pool.scanRequiredRecords rest missing := by
        intro missing
        split_ifs with nothing
        · exact (scan_of_nothing_missing nothing).symm
        · rfl
      simp only [bind_ok, decodeCandidate_ok, ends, ih, mem_cons, forall_eq_or_imp,
        exists_eq_or_imp, lookup_foldl_discharge]
      constructor
      · rintro ⟨_, ⟨rfl, resolved⟩, covered, decoded⟩
        refine ⟨fun chunk needed => ?_, resolved, ?_⟩
        · by_cases inside : chunk ∈ record.chunks
          · exact .inl inside
          · exact .inr (covered chunk ⟨needed, inside⟩)
        · exact decoded
      · rintro ⟨covered, resolved, decoded⟩
        refine ⟨_, ⟨rfl, resolved⟩, fun chunk needed => ?_, decoded⟩
        exact (covered chunk needed.1).resolve_left needed.2
    · rw [if_pos held, if_pos held]
      exact ih

theorem mem_of_mem_firstCopies (selected : record ∈ firstCopies entries missing) :
    ∃ chunk, (chunk, record) ∈ entries := by
  induction entries generalizing missing with
  | nil => cases selected
  | cons entry rest ih =>
    rw [firstCopies] at selected
    split_ifs at selected
    · rcases ih selected with ⟨chunk, mem⟩
      exact ⟨chunk, mem_cons_of_mem _ mem⟩
    · rcases mem_cons.mp selected with rfl | later
      · exact ⟨entry.1, mem_cons_self⟩
      · rcases ih later with ⟨chunk, mem⟩
        exact ⟨chunk, mem_cons_of_mem _ mem⟩

/-- Whatever is listed is brought by a selected Record. -/
theorem exists_firstCopies (own : ∀ entry ∈ entries, entry.1 ∈ entry.2.chunks)
    (held : missing.lookup chunk.1 = some chunk.2) (listed : (chunk, record) ∈ entries) :
    ∃ other ∈ firstCopies entries missing, chunk ∈ other.chunks := by
  induction entries generalizing missing with
  | nil => cases listed
  | cons entry rest ih =>
    rw [forall_mem_cons] at own
    rw [firstCopies]
    split_ifs with absent
    · rcases mem_cons.mp listed with rfl | later
      · exact absurd held absent
      · exact ih own.2 held later
    · by_cases inside : chunk ∈ entry.2.chunks
      · exact ⟨entry.2, mem_cons_self, inside⟩
      · have later : (chunk, record) ∈ rest := by
          rcases mem_cons.mp listed with rfl | later
          · exact absurd own.1 inside
          · exact later
        rcases ih own.2 ((lookup_foldl_discharge _).mpr ⟨held, inside⟩) later with
          ⟨other, selected, brings⟩
        exact ⟨other, mem_cons_of_mem _ selected, brings⟩

end Scans

/-- The structural gate accepts exactly the pools that yield every required Chunk. The content scan
accepts those of them in which the copies that it meets first find their Bases. -/
theorem required_chunks_verified_iff_decodable (pool : Pool) (retiring : List ContainerId)
    (required : Coverage) :
    (pool.verifyRequiredChunkStructure retiring required = .ok () ↔
      ∀ chunk : ChunkCopy, required.lookup chunk.1 = some chunk.2 →
        Decodable (pool.selectable retiring) chunk) ∧
    (pool.verifyRequiredChunks retiring required = .ok () ↔
      (∀ chunk : ChunkCopy, required.lookup chunk.1 = some chunk.2 →
        Decodable (pool.selectable retiring) chunk) ∧
      ∀ record ∈ firstCopies (pool.selectable retiring).candidates required,
        ∀ base, record.codec.dependency = some base →
          HasIndependent (pool.selectable retiring) base) := by
  refine ⟨verifyRequiredChunkStructure_ok, ?_⟩
  have scans : pool.verifyRequiredChunks retiring required = .ok () ↔
      (pool.selectable retiring).scanRequiredRecords (pool.selectable retiring).candidates
        required = .ok () := by
    unfold verifyRequiredChunks
    split_ifs with empty
    · simp [scan_of_nothing_missing empty]
    · rfl
  rw [scans, scanRequiredRecords_ok]
  generalize pool.selectable retiring = pool
  refine and_congr_left fun resolved => forall₂_congr fun chunk needed => ?_
  constructor
  · rintro ⟨record, selected, inside⟩
    rcases mem_of_mem_firstCopies selected with ⟨_, listed⟩
    rcases mem_candidates.mp listed with ⟨container, member, recorded, _⟩
    exact ⟨container, member, record, recorded, inside, resolved record selected⟩
  · rintro ⟨container, member, record, recorded, holds, _⟩
    refine exists_firstCopies ?_ needed (mem_candidates.mpr ⟨container, member, recorded, holds⟩)
    rintro ⟨other, stored⟩ listed
    rcases mem_candidates.mp listed with ⟨_, _, _, inside⟩
    exact inside

/-- A Container that holds one copy of a Chunk. -/
def sampleContainer (name : UInt8) (codec : Codec) : SealedContainer where
  containerId := ⟨List.replicate 16 name, rfl⟩
  containerGeneration := 1
  fileLength := 4096
  records := [⟨codec, 128, [(.zero 32, 1)], nofun⟩]

def danglingCopy : Codec := .dependent (⟨List.replicate 32 1, rfl⟩, 1)

theorem candidates_two (first second : Codec) :
    (selectable [sampleContainer 0 first, sampleContainer 1 second] []).candidates =
      [((.zero 32, 1), ⟨first, 128, [(.zero 32, 1)], nofun⟩),
        ((.zero 32, 1), ⟨second, 128, [(.zero 32, 1)], nofun⟩)] := by
  have index (name : UInt8) (codec : Codec) : (sampleContainer name codec).recoveryIndex =
      [((.zero 32, 1), ⟨codec, 128, [(.zero 32, 1)], nofun⟩)] := mergeSort_singleton _
  exact congrArg₂ List.append (index _ _) (congrArg₂ List.append (index _ _) rfl)

/-- A dependent copy without its Base does no harm behind an independent copy. -/
theorem dangling_copy_passes_behind :
    verifyRequiredChunks [sampleContainer 0 .raw, sampleContainer 1 danglingCopy] []
      (.singleton (.zero 32) 1) = .ok () := by
  refine (required_chunks_verified_iff_decodable _ _ _).2.mpr ⟨?_, ?_⟩
  · refine (required_chunks_verified_iff_decodable _ _ _).1.mp ?_
    simp only [verifyRequiredChunkStructure, candidates_two]
    decide
  · rw [candidates_two]
    decide

/-- A dependent copy without its Base, listed before an independent copy, makes the scan fail. -/
theorem dangling_copy_fails_scan :
    verifyRequiredChunkStructure [sampleContainer 0 danglingCopy, sampleContainer 1 .raw] []
        (.singleton (.zero 32) 1) = .ok () ∧
      verifyRequiredChunks [sampleContainer 0 danglingCopy, sampleContainer 1 .raw] []
          (.singleton (.zero 32) 1) =
        .error (.missingVerifiedChunk ⟨List.replicate 32 1, rfl⟩ 1) := by
  simp only [verifyRequiredChunkStructure, verifyRequiredChunks, candidates_two]
  decide

end Pool

end Fastdup.Store.Maintenance
