import Fastdup.Library.Checked

/-!
# Metadata Objects

Every Metadata Object is stored under the BLAKE3-256 identity of its kind and payload. Its
envelope is at most 16 MiB long, of which one 4,096-byte header.
-/

namespace Fastdup.Format

open Library Checked

def METADATA_HEADER_BYTES : ℕ := 4096
def MAX_METADATA_OBJECT_BYTES : ℕ := 16 * 1024 * 1024

/-- Why a metadata object does not decode. -/
inductive MetadataFormatError where
  | invalidObjectLength (length : ℕ)
  | invalidMagic
  | headerChecksumMismatch
  | payloadChecksumMismatch
  | objectIdMismatch
  | zeroObjectId
  | unsupportedOrReservedField
  | nonZeroPadding
  | invalidPayload
  | invalidExtent
  | invalidPartition
  | arithmeticOverflow
  deriving DecidableEq, Repr

end Fastdup.Format
