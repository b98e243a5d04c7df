import Fastdup.Posix.DenseFile

/-!
# Immutable file content

A committed file is known through its length and the bytes allocated in it only.
-/

namespace Fastdup.Posix

open Library Checked

/-- What the model uses of the trait `CommittedFile`. -/
class CommittedFile (File : Type) where
  logicalSize : File → ℕ
  allocatedBytes : File → ℕ
  allocatedBytesInRange : File → ℕ → ℕ → Except Failure ℕ
  logicalSize_lt : ∀ file, logicalSize file < 2 ^ 64

instance : CommittedFile Empty where
  logicalSize := nofun
  allocatedBytes := nofun
  allocatedBytesInRange := nofun
  logicalSize_lt := nofun

/-- The files that the data of an inode can come from: no bytes, zeros that an allocation has
written, and a file of the store. A file of zeros is the one made for an extent of a mutation. -/
inductive Source (File : Type) where
  | empty
  | zero (sequence start : ℕ) (length : Fin (2 ^ 64))
  | stored (file : File)
  deriving DecidableEq

namespace Source

variable {File : Type} [CommittedFile File]

/-- The part of a range inside a file of some length. -/
def clipped (offset length size : ℕ) : ℕ :=
  min (min (offset + length) (2 ^ 64 - 1)) size - min offset size

instance : CommittedFile (Source File) where
  logicalSize
    | empty => 0
    | zero _ _ length => length
    | stored file => CommittedFile.logicalSize file
  allocatedBytes
    | empty => 0
    | zero _ _ length => length
    | stored file => CommittedFile.allocatedBytes file
  allocatedBytesInRange
    | empty, _, _ => .ok 0
    | zero _ _ size, offset, length => .ok (clipped offset length size)
    | stored file, offset, length => CommittedFile.allocatedBytesInRange file offset length
  logicalSize_lt
    | empty => Nat.two_pow_pos 64
    | zero _ _ length => length.isLt
    | stored file => CommittedFile.logicalSize_lt file

end Source

end Fastdup.Posix
