import Fastdup.Library.PosixAcl
import Fastdup.Library.SortedMap
import Fastdup.Posix.Mutation

/-!
# File flags and extended attributes

The metadata that an inode has besides its mode and owner. Attributes are kept sorted by name,
their number and their bytes are bounded, and the two access control attributes hold well-formed
lists. Every operation keeps metadata valid for the kind of its inode, and building metadata from
the attributes of valid metadata gives it back.
-/

namespace Fastdup.Posix

open Library Checked SortedMap PosixAcl Nat List

/-- The kinds of inode. -/
inductive FileKind where
  | regular
  | directory
  | symlink
  deriving DecidableEq, Repr

/-- Whether an attribute may, must not or must exist before it is set. -/
inductive XattrSetMode where
  | upsert
  | create
  | replace
  deriving DecidableEq, Repr

def FS_IMMUTABLE_FL : ℕ := 0x10
def SUPPORTED_FILE_FLAGS : ℕ := FS_IMMUTABLE_FL
def MAXIMUM_XATTR_NAME_BYTES : ℕ := 255
def MAXIMUM_XATTR_VALUE_BYTES : ℕ := 65536
def MAXIMUM_XATTRS_PER_INODE : ℕ := 1024
def MAXIMUM_XATTR_BYTES_PER_INODE : ℕ := 1048576

def ascii (characters : List Char) : Bytes :=
  characters.map fun character => UInt8.ofNat character.toNat

def POSIX_ACL_ACCESS_XATTR : Bytes :=
  ascii ['s', 'y', 's', 't', 'e', 'm', '.', 'p', 'o', 's', 'i', 'x', '_', 'a', 'c', 'l', '_', 'a',
    'c', 'c', 'e', 's', 's']

def POSIX_ACL_DEFAULT_XATTR : Bytes :=
  ascii ['s', 'y', 's', 't', 'e', 'm', '.', 'p', 'o', 's', 'i', 'x', '_', 'a', 'c', 'l', '_', 'd',
    'e', 'f', 'a', 'u', 'l', 't']

def TRUSTED_NAMESPACE : Bytes := ascii ['t', 'r', 'u', 's', 't', 'e', 'd', '.']
def SECURITY_NAMESPACE : Bytes := ascii ['s', 'e', 'c', 'u', 'r', 'i', 't', 'y', '.']
def USER_NAMESPACE : Bytes := ascii ['u', 's', 'e', 'r', '.']

/-- File flags and extended attributes, with their accounted size. -/
structure InodeMetadata where
  fileFlags : ℕ
  xattrs : SortedMap Bytes Bytes
  xattrBytes : ℕ
  deriving DecidableEq

/-- Only the immutable flag is supported. -/
def validateFileFlags (flags : ℕ) : Except PosixError Unit :=
  require (flags &&& (0xffffffff ^^^ SUPPORTED_FILE_FLAGS) ≠ 0) .unsupported

/-- The name is nonempty, bounded and in a known namespace. -/
def validateXattrName (name : Bytes) : Except PosixError Unit := do
  require (name = [] ∨ 0 ∈ name) .invalidArgument
  require (name.length > MAXIMUM_XATTR_NAME_BYTES) .nameTooLong
  require (¬ (USER_NAMESPACE <+: name ∨ TRUSTED_NAMESPACE <+: name ∨ SECURITY_NAMESPACE <+: name ∨
    name = POSIX_ACL_ACCESS_XATTR ∨ name = POSIX_ACL_DEFAULT_XATTR)) .unsupported

def validateAcl (value : Bytes) : Except PosixError Unit :=
  require (¬ PosixAcl.WellFormed value) .invalidArgument

def isAclName (name : Bytes) : Prop :=
  name = POSIX_ACL_ACCESS_XATTR ∨ name = POSIX_ACL_DEFAULT_XATTR

instance (name : Bytes) : Decidable (isAclName name) :=
  inferInstanceAs (Decidable (_ ∨ _))

/-- Values are bounded, and access lists well formed. -/
def validateXattrValue (kind : FileKind) (name value : Bytes) : Except PosixError Unit := do
  require (value.length > MAXIMUM_XATTR_VALUE_BYTES) .tooBig
  require (name = POSIX_ACL_DEFAULT_XATTR ∧ kind ≠ .directory) .permissionDenied
  if isAclName name then validateAcl value else .ok ()

/-- The mode bits that an access list grants to owner, group class and others. -/
def accessAclMode (value : Bytes) : Except PosixError ℕ := do
  validateAcl value
  let entries := PosixAcl.body value
  let owner := (PosixAcl.permissionsOf PosixAcl.USER_OBJ entries).getD 0
  let group := ((PosixAcl.permissionsOf PosixAcl.MASK entries).or
    (PosixAcl.permissionsOf PosixAcl.GROUP_OBJ entries)).getD 0
  let other := (PosixAcl.permissionsOf PosixAcl.OTHER entries).getD 0
  return owner <<< 6 ||| group <<< 3 ||| other

/-- The mode bits that setting an attribute gives to its inode. -/
def projectedMode (name value : Bytes) : Except PosixError (Option ℕ) :=
  if name = POSIX_ACL_ACCESS_XATTR then (accessAclMode value).map some else .ok none

/-- The bits of a mode that an entry of a list stands for, where it stands for a class. -/
def modeBits (hasMask : Bool) (mode : ℕ) (entry : PosixAcl.AclEntry) : Option ℕ :=
  if entry.tag = PosixAcl.USER_OBJ then some ((mode >>> 6) &&& 7)
  else if entry.tag = PosixAcl.MASK then some ((mode >>> 3) &&& 7)
  else if entry.tag = PosixAcl.GROUP_OBJ ∧ ¬ hasMask then some ((mode >>> 3) &&& 7)
  else if entry.tag = PosixAcl.OTHER then some (mode &&& 7)
  else none

/-- Whether the mask stands for the group bits of the mode. -/
def hasMask (value : Bytes) : Bool :=
  (PosixAcl.body value).any fun entry => entry.tag = PosixAcl.MASK

/-- The default list of a directory with what the requested mode does not ask for taken away. -/
def maskedAcl (value : Bytes) (mode : ℕ) : Except PosixError Bytes := do
  validateAcl value
  return value.take 4 ++ PosixAcl.writePermissions
    (fun entry => (modeBits (hasMask value) mode entry).map (entry.permissions &&& ·))
    (value.drop 4)

/-- The access list with the permissions of a new mode. -/
def rewriteAclMode (value : Bytes) (mode : ℕ) : Except PosixError Bytes := do
  validateAcl value
  return value.take 4 ++ PosixAcl.writePermissions (modeBits (hasMask value) mode) (value.drop 4)

variable {name value : Bytes} {mode requestedMode : ℕ}

namespace InodeMetadata

def default : InodeMetadata where
  fileFlags := 0
  xattrs := .empty
  xattrBytes := 0

def isImmutable (metadata : InodeMetadata) : Bool :=
  decide (metadata.fileFlags &&& FS_IMMUTABLE_FL ≠ 0)

def getXattr (metadata : InodeMetadata) (name : Bytes) : Option Bytes :=
  metadata.xattrs.get? name

def xattrSize (xattr : Bytes × Bytes) : ℕ :=
  xattr.1.length + xattr.2.length

/-- Sets an attribute. The access list also gives the inode its mode bits. -/
def setXattr (metadata : InodeMetadata) (kind : FileKind) (name value : Bytes)
    (mode : XattrSetMode) : Except PosixError (InodeMetadata × Option ℕ) := do
  validateXattrName name
  validateXattrValue kind name value
  require (mode = .create ∧ (metadata.getXattr name).isSome) .exists
  require (mode = .replace ∧ ¬ (metadata.getXattr name).isSome) .noData
  require (¬ (metadata.getXattr name).isSome ∧
    metadata.xattrs.pairs.length = MAXIMUM_XATTRS_PER_INODE) .tooBig
  let kept ← checkedSub .tooBig metadata.xattrBytes
    ((metadata.getXattr name).elim 0 fun stored => xattrSize (name, stored))
  let nextBytes ← checkedAdd .tooBig kept (xattrSize (name, value))
  require (nextBytes > MAXIMUM_XATTR_BYTES_PER_INODE) .tooBig
  let accessMode ← projectedMode name value
  return ({ metadata with xattrs := metadata.xattrs.insert name value,
                          xattrBytes := nextBytes }, accessMode)

/-- Removes an attribute and its size from the account. -/
def removeXattr (metadata : InodeMetadata) (name : Bytes) : Except PosixError InodeMetadata := do
  validateXattrName name
  match metadata.getXattr name with
  | none => .error .noData
  | some value =>
    return { metadata with xattrs := metadata.xattrs.remove name,
                           xattrBytes := metadata.xattrBytes - xattrSize (name, value) }

/-- Replaces the flags. -/
def setFileFlags (metadata : InodeMetadata) (flags : ℕ) : Except PosixError InodeMetadata := do
  validateFileFlags flags
  return { metadata with fileFlags := flags }

/-- Changes the mode, in the access list too when there is one. -/
def chmod (metadata : InodeMetadata) (requestedMode : ℕ) :
    Except PosixError (InodeMetadata × ℕ) :=
  match metadata.getXattr POSIX_ACL_ACCESS_XATTR with
  | none => .ok (metadata, requestedMode &&& 0o7777)
  | some acl => do
      let rewritten ← rewriteAclMode acl requestedMode
      return ({ metadata with
          xattrs := metadata.xattrs.insert POSIX_ACL_ACCESS_XATTR rewritten },
        requestedMode &&& 0o7777)

/-- A new directory takes over the default list of its parent. -/
def inheritDefault (metadata : InodeMetadata) (kind : FileKind) (defaultAcl : Bytes) :
    Except PosixError (InodeMetadata × Option ℕ) :=
  if kind = .directory then metadata.setXattr kind POSIX_ACL_DEFAULT_XATTR defaultAcl .create
  else .ok (metadata, none)

/-- The mode and the metadata of a new inode below a directory. -/
def forChild (metadata : InodeMetadata) (kind : FileKind) (requestedMode umask : ℕ) :
    Except PosixError (ℕ × InodeMetadata) :=
  match metadata.getXattr POSIX_ACL_DEFAULT_XATTR with
  | none => .ok (requestedMode &&& (0xffff ^^^ umask) &&& 0o7777, default)
  | some defaultAcl => do
      let accessAcl ← maskedAcl defaultAcl requestedMode
      let access ← accessAclMode accessAcl
      let child ← default.setXattr kind POSIX_ACL_ACCESS_XATTR accessAcl .create
      let child ← child.1.inheritDefault kind defaultAcl
      return ((requestedMode &&& (0xffff ^^^ 0o777) ||| access) &&& 0o7777, child.1)

/-- The metadata that requests can leave on an inode of this kind. -/
structure Valid (kind : FileKind) (metadata : InodeMetadata) : Prop where
  flags : validateFileFlags metadata.fileFlags = .ok ()
  names : ∀ xattr ∈ metadata.xattrs.pairs, validateXattrName xattr.1 = .ok ()
  values : ∀ xattr ∈ metadata.xattrs.pairs, validateXattrValue kind xattr.1 xattr.2 = .ok ()
  count : metadata.xattrs.pairs.length ≤ MAXIMUM_XATTRS_PER_INODE
  counted : metadata.xattrBytes = (metadata.xattrs.pairs.map xattrSize).sum
  bounded : metadata.xattrBytes ≤ MAXIMUM_XATTR_BYTES_PER_INODE

theorem valid_default (kind : FileKind) : Valid kind default := by
  refine ⟨by decide, ?_, ?_, ?_, rfl, ?_⟩
  · simp [default, empty]
  · simp [default, empty]
  · simp [default, empty]
  · simp [default, empty]

variable {kind : FileKind} {metadata next : InodeMetadata}

section

variable (valid : Valid kind metadata)

include valid

theorem Valid.insert {bytes : ℕ} (validName : validateXattrName name = .ok ())
    (validValue : validateXattrValue kind name value = .ok ())
    (room : (metadata.getXattr name).isSome ∨
      metadata.xattrs.pairs.length ≠ MAXIMUM_XATTRS_PER_INODE)
    (weighed : bytes + (metadata.getXattr name).elim 0 (fun old => xattrSize (name, old)) =
      metadata.xattrBytes + xattrSize (name, value))
    (bounded : bytes ≤ MAXIMUM_XATTR_BYTES_PER_INODE) : Valid kind { metadata with
      xattrs := metadata.xattrs.insert name value, xattrBytes := bytes } := by
  constructor
  case flags => exact valid.flags
  case names =>
    intro xattr mem
    rcases mem_insert.mp mem with rfl | ⟨old, _⟩
    · exact validName
    · exact valid.names xattr old
  case values =>
    intro xattr mem
    rcases mem_insert.mp mem with rfl | ⟨old, _⟩
    · exact validValue
    · exact valid.values xattr old
  case count =>
    have before := valid.count
    have length : (metadata.xattrs.insert name value).pairs.length =
        if (metadata.getXattr name).isSome then metadata.xattrs.pairs.length
        else metadata.xattrs.pairs.length + 1 := length_insert
    simp only [length]
    split
    · exact before
    · rename_i absent
      have free := room.resolve_left absent
      omega
  case counted =>
    have inserted : ((metadata.xattrs.insert name value).pairs.map xattrSize).sum +
        (metadata.getXattr name).elim 0 (fun old => xattrSize (name, old)) =
        (metadata.xattrs.pairs.map xattrSize).sum + xattrSize (name, value) :=
      sum_insert xattrSize
    have counted := valid.counted
    simp only
    omega
  case bounded => exact bounded

theorem Valid.setXattr {mode : XattrSetMode} {accessMode : Option ℕ}
    (set : metadata.setXattr kind name value mode = .ok (next, accessMode)) : Valid kind next := by
  simp only [InodeMetadata.setXattr, bind_ok, require_ok, checkedSub_ok,
    checkedAdd_ok, pure_ok, Prod.mk.injEq] at set
  rcases set with ⟨⟨⟩, validName, ⟨⟩, validValue, _, _, _, _, _, room, kept, ⟨stored, rfl⟩,
    nextBytes, ⟨_, rfl⟩, _, bounded, _, _, rfl, _⟩
  refine valid.insert validName validValue ?_ (by omega) (by omega)
  by_contra full
  rw [not_or, not_not] at full
  exact room full

theorem Valid.replace {stored : Bytes} (found : metadata.getXattr name = some stored)
    (validValue : validateXattrValue kind name value = .ok ())
    (sameLength : value.length = stored.length) :
    Valid kind { metadata with xattrs := metadata.xattrs.insert name value } := by
  have known := valid.names _ (mem_of_get?_eq_some found)
  refine valid.insert known validValue (.inl (by rw [found]; rfl)) ?_ valid.bounded
  simp [found, xattrSize, sameLength]

theorem Valid.removeXattr (removed : metadata.removeXattr name = .ok next) : Valid kind next := by
  simp only [InodeMetadata.removeXattr, bind_ok] at removed
  rcases removed with ⟨_, _, removed⟩
  split at removed
  · cases removed
  · rename_i value found
    rw [pure_ok] at removed
    subst removed
    have sublist : (metadata.xattrs.remove name).pairs.Sublist metadata.xattrs.pairs :=
      filter_sublist
    have weighed := sum_remove xattrSize found
    have counted := valid.counted
    have bounded := valid.bounded
    constructor
    case flags => exact valid.flags
    case names => exact fun xattr mem => valid.names xattr (sublist.subset mem)
    case values => exact fun xattr mem => valid.values xattr (sublist.subset mem)
    case count => exact le_trans sublist.length_le valid.count
    case counted =>
      simp only
      omega
    case bounded =>
      simp only
      omega

theorem Valid.setFileFlags {flags : ℕ} (set : metadata.setFileFlags flags = .ok next) :
    Valid kind next := by
  simp only [InodeMetadata.setFileFlags, bind_ok, pure_ok] at set
  rcases set with ⟨⟨⟩, validFlags, rfl⟩
  exact { valid with flags := validFlags }

end

theorem modeBits_lt {hasMask : Bool} {entry : PosixAcl.AclEntry} {bits : ℕ}
    (chosen : bits ∈ modeBits hasMask mode entry) : bits < 8 := by
  rw [modeBits] at chosen
  have three : ∀ value : ℕ, value &&& 7 < 8 := fun value =>
    lt_succ_of_le and_le_right
  split at chosen
  · cases chosen
    exact three _
  · split at chosen
    · cases chosen
      exact three _
    · split at chosen
      · cases chosen
        exact three _
      · split at chosen
        · cases chosen
          exact three _
        · cases chosen

theorem validateXattrValue_access_iff :
    validateXattrValue kind POSIX_ACL_ACCESS_XATTR value = .ok () ↔
      value.length ≤ MAXIMUM_XATTR_VALUE_BYTES ∧ PosixAcl.WellFormed value := by
  have ne : ¬ POSIX_ACL_ACCESS_XATTR = POSIX_ACL_DEFAULT_XATTR := by decide
  rw [validateXattrValue, if_pos (.inl rfl)]
  simp [validateAcl, bind_ok, require_ok, ne]

theorem Valid.chmod (valid : Valid kind metadata)
    (changed : metadata.chmod requestedMode = .ok (next, mode)) : Valid kind next := by
  rw [InodeMetadata.chmod] at changed
  split at changed
  · cases changed
    exact valid
  · rename_i acl found
    simp only [rewriteAclMode, validateAcl, bind_ok, require_ok, not_not,
      pure_ok, Prod.mk.injEq] at changed
    rcases changed with ⟨_, ⟨_, formed, rfl⟩, rfl, _⟩
    have oldValue := validateXattrValue_access_iff.mp (valid.values _ (mem_of_get?_eq_some found))
    have sameLength : (acl.take 4 ++ writePermissions
        (modeBits (hasMask acl) requestedMode) (acl.drop 4)).length = acl.length := by
      rw [length_append, length_writePermissions, ← length_append, take_append_drop]
    apply valid.replace found _ sameLength
    refine validateXattrValue_access_iff.mpr ⟨?_, ?_⟩
    · rw [sameLength]
      exact oldValue.1
    · exact formed.writePermissions fun entry bits chosen => modeBits_lt chosen

theorem valid_of_forChild {umask : ℕ} {child : InodeMetadata}
    (made : metadata.forChild kind requestedMode umask = .ok (mode, child)) : Valid kind child := by
  rw [forChild] at made
  split at made
  · cases made
    exact valid_default kind
  · simp only [bind_ok, pure_ok, Prod.mk.injEq] at made
    rcases made with ⟨_, _, _, _, ⟨first, _⟩, setAccess, ⟨second, _⟩, setDefault, _, rfl⟩
    have access := (valid_default kind).setXattr setAccess
    rw [inheritDefault] at setDefault
    split at setDefault
    · exact access.setXattr setDefault
    · cases setDefault
      exact access

theorem mode_of_chmod (changed : metadata.chmod requestedMode = .ok (next, mode)) :
    mode ≤ 0o7777 := by
  rw [InodeMetadata.chmod] at changed
  split at changed
  · cases changed
    exact and_le_right
  · simp only [bind_ok, pure_ok, Prod.mk.injEq] at changed
    rcases changed with ⟨_, _, _, rfl⟩
    exact and_le_right

theorem accessAclMode_lt (projected : accessAclMode value = .ok mode) : mode < 2 ^ 9 := by
  simp only [accessAclMode, validateAcl, bind_ok, require_ok, not_not, pure_ok] at projected
  rcases projected with ⟨_, ⟨_, _, _, seen, scanned, _⟩, rfl⟩
  have bits := scan_permissions scanned
  have owner : (permissionsOf PosixAcl.USER_OBJ (body value)).getD 0 < 8 :=
    permissionsOf_lt bits
  have other : (permissionsOf PosixAcl.OTHER (body value)).getD 0 < 8 :=
    permissionsOf_lt bits
  have group : ((permissionsOf PosixAcl.MASK (body value)).or
      (permissionsOf PosixAcl.GROUP_OBJ (body value))).getD 0 < 8 := by
    cases mask : permissionsOf PosixAcl.MASK (body value) with
    | none =>
      exact permissionsOf_lt bits
    | some permissions =>
      have masked : (permissionsOf PosixAcl.MASK (body value)).getD 0 < 8 :=
        permissionsOf_lt bits
      rw [mask] at masked
      exact masked
  apply or_lt_two_pow
  · apply or_lt_two_pow
    · omega
    · rw [shiftLeft_eq]
      omega
  · omega

theorem setXattr_mode {mode : XattrSetMode} {accessMode : ℕ}
    (set : metadata.setXattr kind name value mode = .ok (next, some accessMode)) :
    accessMode < 2 ^ 9 := by
  simp only [InodeMetadata.setXattr, bind_ok, pure_ok, Prod.mk.injEq] at set
  rcases set with ⟨_, _, _, _, _, _, _, _, _, _, _, _, _, _, _, _, _, projected, _, rfl⟩
  rw [projectedMode] at projected
  split at projected
  · rw [map_ok] at projected
    rcases projected with ⟨mode, computed, same⟩
    cases same
    exact accessAclMode_lt computed
  · cases projected

end InodeMetadata

end Fastdup.Posix
