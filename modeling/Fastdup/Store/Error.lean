import Fastdup.Format.Manifest
import Fastdup.Library.FaultyStorage

/-!
# Errors of the stores
-/

namespace Fastdup.Store

open Library Format

/-- What the Container store reports; the fallback of a generation depends on which one it is. -/
inductive StoreError where
  | io (kind : IoErrorKind)
  | format
  | publishVerificationMismatch
  | invalidPublishedName
  | publishedIdentityMismatch
  | missingVerifiedChunk (chunkId : ChunkId) (logicalLength : ℕ)
  | exactLocationMismatch
  | invalidContainerGenerationReservationSpan
  | containerGenerationExhausted
  | containerGenerationHighWaterFormat
  | containerGenerationHighWaterMissing
  | containerGenerationHighWaterChain
  | containerGenerationHighWaterBehind (reservedThrough observed : ℕ)
  | candidateChunkLimitExceeded (limit : ℕ)
  deriving DecidableEq

end Fastdup.Store
