import Mathlib.Data.List.Induction
import Mathlib.Tactic.Ring
import Mathlib.Tactic.Linarith

/-!
# Fixed-offset fields of byte images

An encoded object is a list of bytes whose fields live at fixed offsets. The
encoder starts from a zeroed image and overwrites one field after another; the
decoder reads each field back from its own offset. `splice` and `slice` are these
two operations, and the lemmas below say how they commute: a field reads back what
was last written over it, and a write leaves every disjoint field alone.
-/

namespace Fastdup.Library

open List Nat

/-- For the numerals of `Fin 2`. -/
instance neZero_two : NeZero 2 := ⟨two_ne_zero⟩

/-- For the numerals of `Fin (2 ^ 64)`. -/
instance neZero_two_pow : NeZero (2 ^ 64) := ⟨pow_ne_zero 64 two_ne_zero⟩

/-- Byte strings. -/
abbrev Bytes := List UInt8

namespace Bytes

/-- The bytes from an offset on, at most so many. -/
def slice (bytes : Bytes) (offset length : ℕ) : Bytes :=
  (bytes.drop offset).take length

variable {offset length : ℕ}

theorem slice_to_end (bytes : Bytes) (covers : bytes.length ≤ offset + length) :
    slice bytes offset length = bytes.drop offset := by
  rw [slice, take_of_length_le]
  simp only [length_drop]
  omega

/-- Overwrites the bytes from `offset` on with `field`. -/
def splice (bytes : Bytes) (offset : ℕ) (field : Bytes) : Bytes :=
  bytes.take offset ++ field ++ bytes.drop (offset + field.length)

/-- Byte strings of one length. -/
abbrev Fixed (length : ℕ) := { bytes : Bytes // bytes.length = length }

/-- The lengths of identities. -/
instance : LawfulBEq (Fixed 16) := inferInstance

instance : LawfulBEq (Fixed 32) := inferInstance

def Fixed.zero (length : ℕ) : Fixed length := ⟨List.replicate length 0, by simp⟩

def fixedSlice (bytes : Bytes) (offset length : ℕ) : Fixed length :=
  ⟨(bytes.slice offset length ++ List.replicate length 0).take length, by simp⟩

/-- The little-endian image of `value` in `width` bytes. -/
def leEncode : ℕ → ℕ → Bytes
  | 0, _ => []
  | width + 1, value => UInt8.ofNat value :: leEncode width (value / 256)

/-- The least significant byte comes first. -/
def leDecode : Bytes → ℕ
  | [] => 0
  | byte :: rest => byte.toNat + 256 * leDecode rest

@[simp]
theorem length_leEncode (width value : ℕ) : (leEncode width value).length = width := by
  induction width generalizing value with
  | zero => rfl
  | succ width ih => simp [leEncode, ih]

theorem leDecode_leEncode (width value : ℕ) :
    leDecode (leEncode width value) = value % 256 ^ width := by
  induction width generalizing value with
  | zero => simp [leEncode, leDecode, mod_one]
  | succ width ih =>
    have split : 256 ^ (width + 1) = 256 * 256 ^ width := by ring
    simp [leEncode, leDecode, ih, split, mod_mul]

theorem leDecode_leEncode_of_lt {width value : ℕ} (fits : value < 256 ^ width) :
    leDecode (leEncode width value) = value := by
  rw [leDecode_leEncode, mod_eq_of_lt fits]

theorem leDecode_lt (bytes : Bytes) : bytes.leDecode < 256 ^ bytes.length := by
  induction bytes with
  | nil => simp [leDecode]
  | cons byte rest ih =>
    have split : 256 ^ (rest.length + 1) = 256 * 256 ^ rest.length := by ring
    have small := byte.toNat_lt
    simp only [leDecode, length_cons, split]
    omega

theorem leDecode_slice_lt (bytes : Bytes) (offset length : ℕ) :
    (bytes.slice offset length).leDecode < 256 ^ length := by
  refine lt_of_lt_of_le (leDecode_lt _) (Nat.pow_le_pow_right (by decide) ?_)
  simp [slice]

variable {bytes field : Bytes}

theorem length_splice {offset : ℕ} (fits : offset + field.length ≤ bytes.length) :
    (splice bytes offset field).length = bytes.length := by
  simp only [splice, length_append, length_take, length_drop]
  omega

theorem slice_splice_same (fits : offset ≤ bytes.length) (sameLength : length = field.length) :
    slice (splice bytes offset field) offset length = field := by
  subst sameLength
  have takeLength : (bytes.take offset).length = offset := by simp [fits]
  simp only [slice, splice, append_assoc]
  rw [drop_append_of_le_length (by omega), drop_eq_nil_of_le (by omega)]
  simp

theorem slice_splice_after {offset readOffset length : ℕ} (fits : offset ≤ bytes.length)
    (disjoint : readOffset + length ≤ offset) :
    slice (splice bytes offset field) readOffset length = slice bytes readOffset length := by
  have takeLength : (bytes.take offset).length = offset := by simp [fits]
  simp only [slice, splice, append_assoc]
  rw [drop_append_of_le_length (by omega), take_append_of_le_length (by simp; omega),
    drop_take, take_take]
  congr 1
  omega

theorem drop_splice_before {offset readOffset : ℕ} (fits : offset + field.length ≤ bytes.length)
    (disjoint : offset + field.length ≤ readOffset) :
    (splice bytes offset field).drop readOffset = bytes.drop readOffset := by
  have prefixLength : (bytes.take offset ++ field).length = offset + field.length := by
    simp only [length_append, length_take]
    omega
  obtain ⟨extra, rfl⟩ := Nat.exists_eq_add_of_le disjoint
  simp only [splice]
  rw [drop_append, drop_eq_nil_of_le (by omega), prefixLength, drop_drop]
  simp

theorem slice_splice_before {offset readOffset length : ℕ}
    (fits : offset + field.length ≤ bytes.length) (disjoint : offset + field.length ≤ readOffset) :
    slice (splice bytes offset field) readOffset length = slice bytes readOffset length := by
  simp [slice, drop_splice_before fits disjoint]

theorem splice_splice_same {bytes first second : Bytes} {offset : ℕ}
    (fits : offset + first.length ≤ bytes.length) (sameLength : first.length = second.length) :
    splice (splice bytes offset first) offset second = splice bytes offset second := by
  have takeLength : (bytes.take offset).length = offset := by
    simp only [length_take]
    omega
  have front : (splice bytes offset first).take offset = bytes.take offset := by
    simp only [splice, append_assoc]
    rw [take_append_of_le_length (by omega), take_of_length_le (by omega)]
  have back : (splice bytes offset first).drop (offset + second.length) =
      bytes.drop (offset + second.length) := drop_splice_before fits (by omega)
  simp only [splice] at front back ⊢
  rw [front, back]

theorem splice_slice_self {bytes : Bytes} (fits : offset + length ≤ bytes.length) :
    splice bytes offset (bytes.slice offset length) = bytes := by
  have fieldLength : (bytes.slice offset length).length = length := by
    simp only [slice, length_take, length_drop]
    omega
  rw [splice, fieldLength, slice, ← drop_drop, append_assoc, take_append_drop, take_append_drop]

/-- The image of `size` zero bytes after writing every field at its offset. -/
def image (size : ℕ) (fields : List (ℕ × Bytes)) : Bytes :=
  fields.foldl (fun bytes field => splice bytes field.1 field.2) (List.replicate size 0)

/-- The fields lie inside the image and do not overlap. -/
structure FieldsFit (size : ℕ) (fields : List (ℕ × Bytes)) : Prop where
  inside : ∀ field ∈ fields, field.1 + field.2.length ≤ size
  disjoint : fields.Pairwise (fun left right =>
    left.1 + left.2.length ≤ right.1 ∨ right.1 + right.2.length ≤ left.1)

theorem FieldsFit.of_append {size : ℕ} {fields more : List (ℕ × Bytes)}
    (fit : FieldsFit size (fields ++ more)) : FieldsFit size fields where
  inside field mem := fit.inside field (by simp [mem])
  disjoint := (pairwise_append.mp fit.disjoint).1

theorem image_concat (size : ℕ) (fields : List (ℕ × Bytes)) (field : ℕ × Bytes) :
    image size (fields ++ [field]) = splice (image size fields) field.1 field.2 := by
  simp [image]

variable {fields : List (ℕ × Bytes)}

theorem length_image {size : ℕ} (fit : FieldsFit size fields) :
    (image size fields).length = size := by
  induction fields using List.reverseRecOn with
  | nil => simp [image]
  | append_singleton fields field ih =>
    have inner := ih fit.of_append
    rw [image_concat, length_splice, inner]
    rw [inner]
    exact fit.inside field (by simp)

variable {size : ℕ}

/-- Reading a range that no field touches, or that only one field touches, skips the
fields written after it. -/
theorem slice_image_concat {field : ℕ × Bytes} (fit : FieldsFit size (fields ++ [field]))
    (apart : field.1 + field.2.length ≤ offset ∨ offset + length ≤ field.1) :
    slice (image size (fields ++ [field])) offset length =
      slice (image size fields) offset length := by
  have innerLength := length_image fit.of_append
  have inside := fit.inside field (by simp)
  rw [image_concat]
  rcases apart with before | after
  · exact slice_splice_before (by omega) before
  · exact slice_splice_after (by omega) after

theorem slice_image {value : Bytes} (fit : FieldsFit size fields) (mem : (offset, value) ∈ fields)
    (sameLength : length = value.length) : slice (image size fields) offset length = value := by
  induction fields using List.reverseRecOn with
  | nil => simp at mem
  | append_singleton fields field ih =>
    rcases mem_append.mp mem with earlier | last
    · have apart := (pairwise_append.mp fit.disjoint).2.2 _ earlier field (by simp)
      rw [slice_image_concat fit (by simp only at apart; omega), ih fit.of_append earlier]
    · simp only [mem_singleton] at last
      subst last
      rw [image_concat]
      apply slice_splice_same _ sameLength
      have inside := fit.inside _ (mem_append_right fields (mem_singleton.mpr rfl))
      rw [length_image fit.of_append]
      omega

theorem fixedSlice_image {value : Fixed length} (fit : FieldsFit size fields)
    (mem : (offset, value.val) ∈ fields) :
    fixedSlice (image size fields) offset length = value := by
  apply Subtype.ext
  simp only [fixedSlice, slice_image fit mem value.property.symm]
  rw [take_append_of_le_length (by rw [value.property]), take_of_length_le
    (by rw [value.property])]

theorem slice_image_gap (fit : FieldsFit size fields) (inside : offset + length ≤ size)
    (apart : ∀ field ∈ fields, field.1 + field.2.length ≤ offset ∨ offset + length ≤ field.1) :
    slice (image size fields) offset length = List.replicate length 0 := by
  induction fields using List.reverseRecOn with
  | nil =>
    simp only [image, foldl_nil, slice, drop_replicate, take_replicate]
    congr 1
    omega
  | append_singleton fields field ih =>
    rw [slice_image_concat fit (apart field (by simp)),
      ih fit.of_append (fun field mem => apart field (by simp [mem]))]

end Bytes

end Fastdup.Library
