import Fastdup.Library.Bytes

/-!
# Digests and sealed images

The formats of the repository write their fields into a zeroed image of a fixed size and seal
it with a CRC over the image in which the checksum field itself is zero. The lemmas say how a
sealed image is read: every field as it was written, the gaps as zeros and the checksum as the
one a reader computes.
-/

namespace Fastdup.Format

open Library Bytes List

/-- The checksum and hash functions the formats use. -/
structure Digests where
  crc32cAppend : ℕ → Bytes → ℕ
  blake3 : Bytes → Bytes.Fixed 32
  crc32cAppend_lt : ∀ checksum bytes, crc32cAppend checksum bytes < 256 ^ 4
  crc32cAppend_append : ∀ checksum first second,
    crc32cAppend (crc32cAppend checksum first) second = crc32cAppend checksum (first ++ second)

namespace Digests

/-- Digests whose checksum is always zero. -/
def unchecked (blake3 : Bytes → Bytes.Fixed 32) : Digests where
  crc32cAppend _ _ := 0
  blake3
  crc32cAppend_lt _ _ := by decide
  crc32cAppend_append _ _ _ := rfl

variable (digests : Digests)

def crc32c (bytes : Bytes) : ℕ := digests.crc32cAppend 0 bytes

/-- The checksum of an object whose own checksum field counts as zero. -/
def crc32cWithZeroedU32 (bytes : Bytes) (fieldOffset : ℕ) : ℕ :=
  let before := digests.crc32c (bytes.take fieldOffset)
  let withZero := digests.crc32cAppend before (List.replicate 4 0)
  digests.crc32cAppend withZero (bytes.drop (fieldOffset + 4))

theorem crc32cWithZeroedU32_eq (bytes : Bytes) (fieldOffset : ℕ) :
    digests.crc32cWithZeroedU32 bytes fieldOffset =
      digests.crc32c (bytes.splice fieldOffset (List.replicate 4 0)) := by
  simp [crc32cWithZeroedU32, crc32c, digests.crc32cAppend_append, Bytes.splice]

end Digests

def getU16 (bytes : Bytes) (offset : ℕ) : ℕ := (bytes.slice offset 2).leDecode

def getU32 (bytes : Bytes) (offset : ℕ) : ℕ := (bytes.slice offset 4).leDecode

def getU64 (bytes : Bytes) (offset : ℕ) : ℕ := (bytes.slice offset 8).leDecode

/-- The fields of an image and, behind them, its checksum. -/
def sealedFields (digests : Digests) (size : ℕ) (fields : List (ℕ × Bytes))
    (checksumOffset : ℕ) : List (ℕ × Bytes) :=
  fields ++ [(checksumOffset, Bytes.leEncode 4 (digests.crc32c (Bytes.image size fields)))]

/-- The image with the checksum over its zeroed field. -/
def sealImage (digests : Digests) (size : ℕ) (fields : List (ℕ × Bytes)) (checksumOffset : ℕ) :
    Bytes :=
  (Bytes.image size fields).splice checksumOffset
    (Bytes.leEncode 4 (digests.crc32c (Bytes.image size fields)))

section Sealing

variable {digests : Digests} {size checksumOffset : ℕ} {fields : List (ℕ × Bytes)}

theorem sealImage_eq_image : sealImage digests size fields checksumOffset =
      Bytes.image size (sealedFields digests size fields checksumOffset) := by
  rw [sealedFields, image_concat]
  rfl

theorem mem_sealedFields {field : ℕ × Bytes} (mem : field ∈ fields) :
    field ∈ sealedFields digests size fields checksumOffset :=
  mem_append_left _ mem

variable (fit : Bytes.FieldsFit size (sealedFields digests size fields checksumOffset))

include fit

theorem length_sealImage : (sealImage digests size fields checksumOffset).length = size := by
  rw [sealImage_eq_image, length_image fit]

variable {offset length : ℕ}

theorem slice_sealImage {value : Bytes}
    (mem : (offset, value) ∈ sealedFields digests size fields checksumOffset)
    (sameLength : length = value.length) :
    (sealImage digests size fields checksumOffset).slice offset length = value := by
  rw [sealImage_eq_image]
  exact slice_image fit mem sameLength

theorem fixedSlice_sealImage {value : Bytes.Fixed length}
    (mem : (offset, value.val) ∈ sealedFields digests size fields checksumOffset) :
    (sealImage digests size fields checksumOffset).fixedSlice offset length = value := by
  rw [sealImage_eq_image]
  exact fixedSlice_image fit mem

theorem leDecode_slice_sealImage {offset width value : ℕ} (fits : value < 256 ^ width)
    (mem : (offset, Bytes.leEncode width value) ∈ sealedFields digests size fields checksumOffset) :
    ((sealImage digests size fields checksumOffset).slice offset width).leDecode = value := by
  rw [slice_sealImage fit mem (by simp), leDecode_leEncode_of_lt fits]

theorem slice_sealImage_gap (inside : offset + length ≤ size)
    (apart : ∀ field ∈ sealedFields digests size fields checksumOffset, field.1 + field.2.length ≤
      offset ∨ offset + length ≤ field.1) :
    (sealImage digests size fields checksumOffset).slice offset length =
      List.replicate length 0 := by
  rw [sealImage_eq_image]
  exact slice_image_gap fit inside apart

theorem sealImage_checksum :
    digests.crc32cWithZeroedU32 (sealImage digests size fields checksumOffset) checksumOffset =
      getU32 (sealImage digests size fields checksumOffset) checksumOffset := by
  have imageLength := length_image fit.of_append
  have inside : checksumOffset + 4 ≤ size := by
    have bounded := fit.inside _ (mem_append_right _ (mem_singleton_self _))
    simpa using bounded
  -- The checksum covers the image in which its own field is still zero.
  have blank : (Bytes.image size fields).slice checksumOffset 4 = List.replicate 4 0 := by
    apply slice_image_gap fit.of_append inside
    intro field mem
    have apart := (pairwise_append.mp fit.disjoint).2.2 field mem _ (mem_singleton.mpr rfl)
    simpa using apart
  have zeroed : (sealImage digests size fields checksumOffset).splice checksumOffset
      (List.replicate 4 0) = Bytes.image size fields := by
    rw [sealImage, splice_splice_same (by simp [imageLength, inside]) (by simp), ← blank,
      splice_slice_self (by rw [imageLength]; exact inside)]
  rw [Digests.crc32cWithZeroedU32_eq, zeroed, getU32, leDecode_slice_sealImage fit]
  · exact digests.crc32cAppend_lt _ _
  · exact mem_append_right _ (mem_singleton_self _)

end Sealing

end Fastdup.Format
