import Fastdup.Format.Digests

/-!
# Commit Records

One Commit Record is a 4,096-byte image that names a Namespace Root and links to the
hash of the record before it. The record's fields are private in the source and only
`CommitRecord::new` and `CommitRecord::decode` build one, so the structure below
carries what both check.

CRC32C and BLAKE3 come from outside the repository. `Digests` takes them as
functions; the one law it asks for is the documented one that `crc32c_append`
continues a checksum over further bytes.
-/

namespace Fastdup.Format

open Library List

/-- The nonzero 32-byte identity of a Metadata Object. -/
def MetadataObjectId := { bytes : Bytes.Fixed 32 // bytes ≠ Bytes.Fixed.zero 32 }
  deriving DecidableEq

def MetadataObjectId.new (bytes : Bytes.Fixed 32) : Option MetadataObjectId :=
  if nonzero : bytes = Bytes.Fixed.zero 32 then none else some ⟨bytes, nonzero⟩

theorem MetadataObjectId.new_val (id : MetadataObjectId) : MetadataObjectId.new id.val = some id :=
  dif_neg id.property

/-- A nonzero identity of the policy set. -/
def PolicySetId := { bytes : Bytes.Fixed 32 // bytes ≠ Bytes.Fixed.zero 32 }
  deriving DecidableEq

def PolicySetId.new (bytes : Bytes.Fixed 32) : Option PolicySetId :=
  if nonzero : bytes = Bytes.Fixed.zero 32 then none else some ⟨bytes, nonzero⟩

theorem PolicySetId.new_val (id : PolicySetId) : PolicySetId.new id.val = some id :=
  dif_neg id.property

/-- The hash that chains a record to the one before it. -/
abbrev CommitRecordHash := Bytes.Fixed 32

def CommitRecordHash.ZERO : CommitRecordHash := Bytes.Fixed.zero 32

def CommitRecordHash.of (digests : Digests) (encodedRecord : Bytes) : CommitRecordHash :=
  digests.blake3 encodedRecord

def COMMIT_RECORD_BYTES : ℕ := 4096
def COMMIT_MAGIC : Bytes := [0x46, 0x44, 0x43, 0x4d, 0x49, 0x54, 0x30, 0x31]
def EPOCH_FORMAT_VERSION : ℕ := 2
def CURRENT_REPOSITORY_FORMAT_EPOCH : ℕ := 3
def RECORD_TYPE_NAMESPACE : ℕ := 1
def HEADER_BYTES : ℕ := 176
def BLAKE3_256_ALGORITHM : ℕ := 1
def CRC32C_ALGORITHM : ℕ := 1
def CHECKSUM_OFFSET : ℕ := 168

/-- Why a commit record does not decode. -/
inductive CommitFormatError where
  | invalidLength (length : ℕ)
  | invalidMagic
  | checksumMismatch
  | unsupportedOrReservedField
  | invalidChainStart
  | invalidNamespaceRoot
  | invalidPolicySet
  | invalidInodeReservation
  | invalidInodeAllocationCursor
  deriving DecidableEq, Repr

/-- The field values of a Commit Record before its checks. -/
structure CommitFields (ObjectId : Type) where
  generation : ℕ
  previousRecordHash : CommitRecordHash
  namespaceRoot : ObjectId
  policySet : PolicySetId
  namespaceMutationCutoff : ℕ
  inodeReservationEnd : ℕ
  inodeAllocationCursor : ℕ
  formatEpoch : ℕ
  deriving DecidableEq

/-- The machine widths of the numeric fields, and the one epoch both constructors
let through. -/
structure CommitFields.Widths {ObjectId : Type} (fields : CommitFields ObjectId) : Prop where
  generation : fields.generation < 256 ^ 8
  namespaceMutationCutoff : fields.namespaceMutationCutoff < 256 ^ 8
  inodeReservationEnd : fields.inodeReservationEnd < 256 ^ 8
  inodeAllocationCursor : fields.inodeAllocationCursor < 256 ^ 8
  formatEpoch : fields.formatEpoch = CURRENT_REPOSITORY_FORMAT_EPOCH

/-- Fields that fit their widths and start or continue a chain. -/
structure CommitRecord (ObjectId : Type) extends CommitFields ObjectId where
  widths : toCommitFields.Widths
  chainStart : generation ≠ 0 ∧ (generation = 1 ↔ previousRecordHash = CommitRecordHash.ZERO)
  reservation : 2 ≤ inodeReservationEnd
  allocation : 2 ≤ inodeAllocationCursor ∧ inodeAllocationCursor ≤ inodeReservationEnd
  deriving DecidableEq

namespace CommitRecord

variable {ObjectId : Type}

/-- The checks on decoded fields, in the decoder's order. -/
def newDecoded (fields : CommitFields ObjectId) (widths : fields.Widths) :
    Except CommitFormatError (CommitRecord ObjectId) :=
  if chainStart : fields.generation ≠ 0 ∧
      (fields.generation = 1 ↔ fields.previousRecordHash = CommitRecordHash.ZERO) then
    if reservation : 2 ≤ fields.inodeReservationEnd then
      if allocation : 2 ≤ fields.inodeAllocationCursor ∧
          fields.inodeAllocationCursor ≤ fields.inodeReservationEnd then
        .ok ⟨fields, widths, chainStart, reservation, allocation⟩
      else .error .invalidInodeAllocationCursor
    else .error .invalidInodeReservation
  else .error .invalidChainStart

def new (fields : CommitFields ObjectId)
    (widths :
      { fields with formatEpoch := CURRENT_REPOSITORY_FORMAT_EPOCH : CommitFields _ }.Widths) :
    Except CommitFormatError (CommitRecord ObjectId) :=
  newDecoded { fields with formatEpoch := CURRENT_REPOSITORY_FORMAT_EPOCH } widths

theorem newDecoded_self (record : CommitRecord ObjectId) :
    newDecoded record.toCommitFields record.widths = .ok record := by
  simp [newDecoded, record.chainStart, record.reservation, record.allocation]

/-- The encoded fields ahead of the checksum, in the order they are written. -/
def encodedFields (record : CommitRecord MetadataObjectId) : List (ℕ × Bytes) :=
  [(0, COMMIT_MAGIC),
    (8, Bytes.leEncode 2 EPOCH_FORMAT_VERSION),
    (10, Bytes.leEncode 2 RECORD_TYPE_NAMESPACE),
    (12, Bytes.leEncode 2 HEADER_BYTES),
    (14, Bytes.leEncode 2 BLAKE3_256_ALGORITHM),
    (16, Bytes.leEncode 4 COMMIT_RECORD_BYTES),
    (20, Bytes.leEncode 2 CRC32C_ALGORITHM),
    (22, Bytes.leEncode 2 record.formatEpoch),
    (40, Bytes.leEncode 8 record.generation),
    (48, record.previousRecordHash.val),
    (80, record.namespaceRoot.val.val),
    (112, record.policySet.val.val),
    (144, Bytes.leEncode 8 record.namespaceMutationCutoff),
    (152, Bytes.leEncode 8 record.inodeReservationEnd),
    (160, Bytes.leEncode 8 record.inodeAllocationCursor)]

/-- The record image with its checksum in place. -/
def encode (digests : Digests) (record : CommitRecord MetadataObjectId) : Bytes :=
  let bytes := Bytes.image COMMIT_RECORD_BYTES record.encodedFields
  let checksum := digests.crc32c bytes
  bytes.splice CHECKSUM_OFFSET (Bytes.leEncode 4 checksum)

/-- The values that sit in the record fields of an image. -/
def decodedFields (bytes : Bytes) (namespaceRoot : MetadataObjectId) (policySet : PolicySetId) :
    CommitFields MetadataObjectId where
  generation := getU64 bytes 40
  previousRecordHash := bytes.fixedSlice 48 32
  namespaceRoot := namespaceRoot
  policySet := policySet
  namespaceMutationCutoff := getU64 bytes 144
  inodeReservationEnd := getU64 bytes 152
  inodeAllocationCursor := getU64 bytes 160
  formatEpoch := getU16 bytes 22

/-- The fixed fields that one supported format version admits. -/
def UnsupportedOrReserved (bytes : Bytes) : Prop :=
  getU16 bytes 8 ≠ EPOCH_FORMAT_VERSION ∨
    getU16 bytes 22 ≠ CURRENT_REPOSITORY_FORMAT_EPOCH ∨
    getU16 bytes 10 ≠ RECORD_TYPE_NAMESPACE ∨
    getU16 bytes 12 ≠ HEADER_BYTES ∨
    getU16 bytes 14 ≠ BLAKE3_256_ALGORITHM ∨
    getU32 bytes 16 ≠ COMMIT_RECORD_BYTES ∨
    getU16 bytes 20 ≠ CRC32C_ALGORITHM ∨
    getU64 bytes 24 ≠ 0 ∨
    getU64 bytes 32 ≠ 0 ∨
    ∃ byte ∈ bytes.drop 172, byte ≠ 0

instance (bytes : Bytes) : Decidable (UnsupportedOrReserved bytes) :=
  inferInstanceAs (Decidable (_ ∨ _))

theorem decodedFields_widths {bytes : Bytes} (namespaceRoot : MetadataObjectId)
    (policySet : PolicySetId) (supported : ¬UnsupportedOrReserved bytes) :
    (decodedFields bytes namespaceRoot policySet).Widths where
  generation := bytes.leDecode_slice_lt 40 8
  namespaceMutationCutoff := bytes.leDecode_slice_lt 144 8
  inodeReservationEnd := bytes.leDecode_slice_lt 152 8
  inodeAllocationCursor := bytes.leDecode_slice_lt 160 8
  formatEpoch := by
    simp only [UnsupportedOrReserved, not_or, not_not] at supported
    exact supported.2.1

/-- The length, magic, checksum and reserved fields are checked before the chain. -/
def decode (digests : Digests) (bytes : Bytes) :
    Except CommitFormatError (CommitRecord MetadataObjectId) :=
  if bytes.length ≠ COMMIT_RECORD_BYTES then
    .error (.invalidLength bytes.length)
  else if bytes.slice 0 8 ≠ COMMIT_MAGIC then
    .error .invalidMagic
  else if digests.crc32cWithZeroedU32 bytes CHECKSUM_OFFSET ≠ getU32 bytes CHECKSUM_OFFSET then
    .error .checksumMismatch
  else if unsupported : UnsupportedOrReserved bytes then
    .error .unsupportedOrReservedField
  else
    match MetadataObjectId.new (bytes.fixedSlice 80 32) with
    | none => .error .invalidNamespaceRoot
    | some namespaceRoot =>
      match PolicySetId.new (bytes.fixedSlice 112 32) with
      | none => .error .invalidPolicySet
      | some policySet =>
        newDecoded (decodedFields bytes namespaceRoot policySet)
          (decodedFields_widths namespaceRoot policySet unsupported)

section RoundTrip

variable (digests : Digests) (record : CommitRecord MetadataObjectId)

theorem encodedFields_fit : Bytes.FieldsFit COMMIT_RECORD_BYTES
    (sealedFields digests COMMIT_RECORD_BYTES record.encodedFields CHECKSUM_OFFSET) := by
  have hashLength := record.previousRecordHash.property
  have rootLength := record.namespaceRoot.val.property
  have policyLength := record.policySet.val.property
  constructor
  · simp [sealedFields, encodedFields, COMMIT_RECORD_BYTES, COMMIT_MAGIC, CHECKSUM_OFFSET,
      hashLength, rootLength, policyLength]
  · simp [sealedFields, encodedFields, COMMIT_MAGIC, CHECKSUM_OFFSET, hashLength, rootLength,
      policyLength]

@[simp]
theorem length_encode : (encode digests record).length = COMMIT_RECORD_BYTES :=
  length_sealImage (encodedFields_fit digests record)

theorem leDecode_slice_encode {offset width value : ℕ} (fits : value < 256 ^ width)
    (mem : (offset, Bytes.leEncode width value) ∈ record.encodedFields) :
    ((encode digests record).slice offset width).leDecode = value :=
  leDecode_slice_sealImage (encodedFields_fit digests record) fits (mem_sealedFields mem)

theorem getU64_encode_generation : getU64 (encode digests record) 40 = record.generation :=
  leDecode_slice_encode digests record record.widths.generation (by simp [encodedFields])

theorem encode_supported : ¬UnsupportedOrReserved (encode digests record) := by
  have hashLength := record.previousRecordHash.property
  have rootLength := record.namespaceRoot.val.property
  have policyLength := record.policySet.val.property
  have gap : ∀ {offset length : ℕ}, offset + length ≤ COMMIT_RECORD_BYTES →
      (24 ≤ offset ∧ offset + length ≤ 40) ∨ 172 ≤ offset →
      (encode digests record).slice offset length = List.replicate length 0 := by
    intro offset length inside between
    apply slice_sealImage_gap (encodedFields_fit digests record) inside
    simp only [sealedFields, encodedFields, COMMIT_MAGIC, CHECKSUM_OFFSET, hashLength,
      rootLength, policyLength, cons_append, nil_append, forall_mem_cons,
      length_cons, length_nil, Bytes.length_leEncode]
    simp only [not_mem_nil, false_implies, implies_true, and_true]
    omega
  have field := @leDecode_slice_encode digests record
  simp only [UnsupportedOrReserved, not_or, not_not, getU16, getU32, getU64]
  refine ⟨?_, ?_, ?_, ?_, ?_, ?_, ?_, ?_, ?_, ?_⟩
  case refine_2 =>
    rw [← record.widths.formatEpoch]
    exact field (by rw [record.widths.formatEpoch]; decide) (by simp [encodedFields])
  case refine_8 | refine_9 =>
    rw [gap (by decide) (by omega)]
    decide
  case refine_10 =>
    rintro ⟨byte, mem, nonzero⟩
    rw [← Bytes.slice_to_end _ (by rw [length_encode]; decide : _ ≤ 172 + 3924),
      gap (by decide) (by omega)] at mem
    exact nonzero (eq_of_mem_replicate mem)
  all_goals exact field (by decide) (by simp [encodedFields])

theorem encode_checksum : digests.crc32cWithZeroedU32 (encode digests record) CHECKSUM_OFFSET =
      getU32 (encode digests record) CHECKSUM_OFFSET :=
  sealImage_checksum (encodedFields_fit digests record)

theorem decode_encode : decode digests (encode digests record) = .ok record := by
  have field : ∀ {offset value : ℕ}, value < 256 ^ 8 →
      (offset, Bytes.leEncode 8 value) ∈ record.encodedFields →
      getU64 (encode digests record) offset = value :=
    fun fits mem => leDecode_slice_encode digests record fits mem
  have array : ∀ {offset : ℕ} {value : Bytes.Fixed 32},
      (offset, value.val) ∈ record.encodedFields →
      (encode digests record).fixedSlice offset 32 = value :=
    fun mem => fixedSlice_sealImage (encodedFields_fit digests record) (mem_sealedFields mem)
  have magic : (encode digests record).slice 0 8 = COMMIT_MAGIC :=
    slice_sealImage (encodedFields_fit digests record)
      (mem_sealedFields (by simp [encodedFields])) rfl
  have namespaceRoot : MetadataObjectId.new ((encode digests record).fixedSlice 80 32) =
      some record.namespaceRoot := by
    rw [array (by simp [encodedFields] : (80, record.namespaceRoot.val.val) ∈ _)]
    exact record.namespaceRoot.new_val
  have policySet : PolicySetId.new ((encode digests record).fixedSlice 112 32) =
      some record.policySet := by
    rw [array (by simp [encodedFields] : (112, record.policySet.val.val) ∈ _)]
    exact record.policySet.new_val
  have epoch : getU16 (encode digests record) 22 = record.formatEpoch :=
    leDecode_slice_encode digests record (by rw [record.widths.formatEpoch]; decide)
      (by simp [encodedFields])
  have fields : decodedFields (encode digests record) record.namespaceRoot record.policySet =
      record.toCommitFields := by
    simp only [decodedFields]
    rw [field record.widths.generation (by simp [encodedFields]),
      field record.widths.namespaceMutationCutoff (by simp [encodedFields]),
      field record.widths.inodeReservationEnd (by simp [encodedFields]),
      field record.widths.inodeAllocationCursor (by simp [encodedFields]),
      array (by simp [encodedFields] : (48, record.previousRecordHash.val) ∈ _), epoch]
  simp only [decode, length_encode, magic, encode_checksum, encode_supported, namespaceRoot,
    policySet, ne_eq, not_true_eq_false, if_false, dif_neg, not_false_eq_true, fields]
  exact newDecoded_self record

end RoundTrip

-- Everything below reads an image through its length and `decode_encode`.
attribute [irreducible] encode

end CommitRecord

end Fastdup.Format
