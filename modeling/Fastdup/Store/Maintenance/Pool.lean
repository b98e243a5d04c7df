import Fastdup.Format.Manifest
import Mathlib.Data.List.Nodup

/-!
# The Container pool

A Container is a list of encoded Records. A RAW or Zstd Record decodes on its own; a dependent
Record decodes from an independent copy of the Base it names, and never from another dependent
copy of that Base.
-/

namespace Fastdup.Store.Maintenance

open Library Checked Format

abbrev ContainerId := Bytes.Fixed 16

/-- A Chunk as it is stored: its identity and its logical length. -/
abbrev ChunkCopy := ChunkId × ℕ

/-- How a record encodes its Chunks; a dependent one names its base. -/
inductive Codec where
  | raw
  | zstd
  | dependent (base : ChunkCopy)
  deriving DecidableEq

namespace Codec

/-- The Base a Record names, `[0; 32]` in the source for none. -/
def dependency : Codec → Option ChunkCopy
  | .dependent base => some base
  | _ => none

/-- The record decodes without another one. -/
def Independent (codec : Codec) : Prop :=
  codec.dependency = none

instance (codec : Codec) : Decidable codec.Independent :=
  inferInstanceAs (Decidable (_ = _))

end Codec

/-- A record of a sealed Container; it holds at least one Chunk. -/
structure EncodingRecord where
  codec : Codec
  recordLength : ℕ
  chunks : List ChunkCopy
  occupied : chunks ≠ []
  deriving DecidableEq

/-- A sealed Container with its records. -/
structure SealedContainer where
  containerId : ContainerId
  containerGeneration : ℕ
  fileLength : ℕ
  records : List EncodingRecord
  deriving DecidableEq

/-- The Chunks of a Container in the order of its Locations. -/
def SealedContainer.chunks (container : SealedContainer) : List ChunkCopy :=
  container.records.flatMap EncodingRecord.chunks

/-- The Bases that the Container needs. -/
def SealedContainer.dependencies (container : SealedContainer) : List ChunkCopy :=
  container.records.filterMap (·.codec.dependency)

/-- The published Containers in the order of their names. -/
abbrev Pool := List SealedContainer

/-- Why maintenance stops. -/
inductive MaintenanceError where
  | arithmeticOverflow
  | onlineChunkLengthMismatch (chunkId : ChunkId) (expected observed : ℕ)
  | publishVerificationMismatch
  | missingContainer
  | missingBase
  | containerGenerationExhausted
  | gcPlanProfileMismatch
  | staleGcPlan
  | missingReplacementChunk
  | exactProfileMismatch
  | gcProofRequiresActiveExactIndex
  | emptyGcCandidateProof
  | gcCandidateProofBudgetExceeded
  | gcCandidateIdentityMismatch
  | publishedIdentityMismatch
  | missingLiveExactLocation (chunkId : ChunkId)
  | chunkLengthMismatch (chunkId : ChunkId) (expected observed : ℕ)
  | candidateChunkLimitExceeded
  | unprofitableGcCandidateProof (victimBytes replacementUpper : ℕ)
  | gcRetirementMissingPreviousGeneration
  | storage
  /-- An `ASSERT` of the source that ends the process. -/
  | assertion
  deriving DecidableEq, Repr

namespace Pool

/-- A Container of the pool holds the Chunk in a RAW or Zstd Record. -/
def HasIndependent (pool : Pool) (chunk : ChunkCopy) : Prop :=
  ∃ container ∈ pool, ∃ record ∈ container.records, record.codec.Independent ∧ chunk ∈ record.chunks

instance (pool : Pool) (chunk : ChunkCopy) : Decidable (HasIndependent pool chunk) :=
  inferInstanceAs (Decidable (∃ container ∈ pool, _))

abbrev Stores (pool : Pool) (chunk : ChunkCopy) : Prop :=
  ∃ container ∈ pool, chunk ∈ container.chunks

/-- Some Record of the pool yields the Chunk. -/
def Decodable (pool : Pool) (chunk : ChunkCopy) : Prop :=
  ∃ container ∈ pool, ∃ record ∈ container.records, chunk ∈ record.chunks ∧
    ∀ base, record.codec.dependency = some base → HasIndependent pool base

instance (pool : Pool) (chunk : ChunkCopy) : Decidable (Decodable pool chunk) :=
  inferInstanceAs (Decidable (∃ container ∈ pool, ∃ record ∈ container.records,
    chunk ∈ record.chunks ∧ ∀ base ∈ record.codec.dependency, HasIndependent pool base))

/-- Every stored dependent Record finds its Base. -/
def Resolved (pool : Pool) : Prop :=
  ∀ container ∈ pool, ∀ base ∈ container.dependencies, HasIndependent pool base

instance (pool : Pool) : Decidable (Resolved pool) :=
  inferInstanceAs (Decidable (∀ container ∈ pool, _))

/-- One identity names one payload, so its copies agree in their length. -/
def Agrees (pool : Pool) : Prop :=
  ∀ first ∈ pool, ∀ second ∈ pool, ∀ left ∈ first.chunks, ∀ right ∈ second.chunks,
    left.1 = right.1 → left.2 = right.2

instance (pool : Pool) : Decidable (Agrees pool) :=
  inferInstanceAs (Decidable (∀ first ∈ pool, _))

/-- A name belongs to one Container. -/
def Distinct (pool : Pool) : Prop :=
  (pool.map SealedContainer.containerId).Nodup

instance (pool : Pool) : Decidable (Distinct pool) :=
  inferInstanceAs (Decidable (List.Nodup _))

end Pool

section Membership

variable {container : SealedContainer} {pool larger : Pool} {chunk base : ChunkCopy}

theorem SealedContainer.mem_chunks :
    chunk ∈ container.chunks ↔ ∃ record ∈ container.records, chunk ∈ record.chunks :=
  List.mem_flatMap

theorem SealedContainer.mem_dependencies :
    base ∈ container.dependencies ↔ ∃ record ∈ container.records, record.codec.dependency =
      some base :=
  List.mem_filterMap

section

variable (stored : Pool.HasIndependent pool chunk)

include stored

theorem Pool.HasIndependent.mono (kept : ∀ container ∈ pool, container ∈ larger) :
    Pool.HasIndependent larger chunk := by
  rcases stored with ⟨container, mem, found⟩
  exact ⟨container, kept container mem, found⟩

theorem Pool.HasIndependent.decodable : Pool.Decodable pool chunk := by
  rcases stored with ⟨container, mem, record, recorded, independent, holds⟩
  refine ⟨container, mem, record, recorded, holds, ?_⟩
  intro base dependent
  rw [independent] at dependent
  cases dependent

theorem Pool.HasIndependent.stores : pool.Stores chunk := by
  rcases stored with ⟨container, mem, record, recorded, _, holds⟩
  exact ⟨container, mem, SealedContainer.mem_chunks.mpr ⟨record, recorded, holds⟩⟩

end

end Membership

end Fastdup.Store.Maintenance
