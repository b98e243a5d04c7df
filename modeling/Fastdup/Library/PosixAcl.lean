import Fastdup.Library.Bytes
import Mathlib.Data.List.Basic
import Mathlib.Data.Nat.Bitwise

/-!
# Access control lists on the wire

The value of an access control attribute is a version and entries of eight bytes: a tag, three
permission bits and the number of a user or group. The entries are strictly ordered by tag and
number, owner, group and others are all there, and so is the mask once somebody is named.
Changing permissions in place keeps a value well formed.
-/

namespace Fastdup.Library.PosixAcl

open Bytes List

def VERSION : ℕ := 2
def USER_OBJ : ℕ := 0x01
def USER : ℕ := 0x02
def GROUP_OBJ : ℕ := 0x04
def GROUP : ℕ := 0x08
def MASK : ℕ := 0x10
def OTHER : ℕ := 0x20
def UNDEFINED_ID : ℕ := 0xffffffff

/-- One entry of an access control list, as its bytes say it. -/
structure AclEntry where
  tag : ℕ
  permissions : ℕ
  id : ℕ
  deriving DecidableEq, Repr

def decodeEntry (tag permissions id : Bytes) : AclEntry where
  tag := leDecode tag
  permissions := leDecode permissions
  id := leDecode id

/-- The entries in chunks of eight bytes; a shorter rest is not looked at. -/
def decodeEntries : Bytes → List AclEntry
  | t₀ :: t₁ :: p₀ :: p₁ :: i₀ :: i₁ :: i₂ :: i₃ :: rest =>
    decodeEntry [t₀, t₁] [p₀, p₁] [i₀, i₁, i₂, i₃] :: decodeEntries rest
  | _ => []

/-- Writes new permissions over those of every entry for which there are some. -/
def writePermissions (permissions : AclEntry → Option ℕ) : Bytes → Bytes
  | t₀ :: t₁ :: p₀ :: p₁ :: i₀ :: i₁ :: i₂ :: i₃ :: rest =>
    let written :=
      match permissions (decodeEntry [t₀, t₁] [p₀, p₁] [i₀, i₁, i₂, i₃]) with
      | some value => leEncode 2 value
      | none => [p₀, p₁]
    t₀ :: t₁ :: written ++ i₀ :: i₁ :: i₂ :: i₃ :: writePermissions permissions rest
  | rest => rest

/-- The place of an entry in the order of the list; `none` for an entry that no list may have. -/
def AclEntry.order (entry : AclEntry) : Option (ℕ × ℕ) :=
  if entry.tag = USER_OBJ ∧ entry.id = UNDEFINED_ID then some (0, 0)
  else if entry.tag = USER ∧ entry.id ≠ UNDEFINED_ID then some (1, entry.id)
  else if entry.tag = GROUP_OBJ ∧ entry.id = UNDEFINED_ID then some (2, 0)
  else if entry.tag = GROUP ∧ entry.id ≠ UNDEFINED_ID then some (3, entry.id)
  else if entry.tag = MASK ∧ entry.id = UNDEFINED_ID then some (4, 0)
  else if entry.tag = OTHER ∧ entry.id = UNDEFINED_ID then some (5, 0)
  else none

def atLeast (previous order : ℕ × ℕ) : Prop :=
  order.1 < previous.1 ∨ order.1 = previous.1 ∧ order.2 ≤ previous.2

instance (previous order : ℕ × ℕ) : Decidable (atLeast previous order) :=
  inferInstanceAs (Decidable (_ ∨ _))

/-- Goes through the entries after those at the places `seen`, the last of them in front. -/
def scan (seen : List (ℕ × ℕ)) : List AclEntry → Option (List (ℕ × ℕ))
  | [] => some seen
  | entry :: rest =>
    if entry.permissions ≥ 8 then none
    else
      match entry.order with
      | none => none
      | some order =>
        if order ∈ seen ∨ ∃ previous ∈ seen.head?, atLeast previous order then none
        else scan (order :: seen) rest

/-- The entries that every list has, and a mask if others are named. -/
def Complete (seen : List (ℕ × ℕ)) : Prop :=
  (0, 0) ∈ seen ∧ (2, 0) ∈ seen ∧ (5, 0) ∈ seen ∧
    ((∃ order ∈ seen, order.1 = 1 ∨ order.1 = 3) → (4, 0) ∈ seen)

instance (seen : List (ℕ × ℕ)) : Decidable (Complete seen) :=
  inferInstanceAs (Decidable (_ ∧ _))

def body (value : Bytes) : List AclEntry :=
  decodeEntries (value.drop 4)

/-- Version, order and completeness of an encoded list. -/
def WellFormed (value : Bytes) : Prop :=
  4 ≤ value.length ∧ (value.length - 4) % 8 = 0 ∧ leDecode (value.take 4) = VERSION ∧
    ∃ seen ∈ scan [] (body value), Complete seen

instance (value : Bytes) : Decidable (WellFormed value) :=
  inferInstanceAs (Decidable (_ ∧ _))

variable {entries : List AclEntry} {seen result : List (ℕ × ℕ)}

section Write

variable {permissions : AclEntry → Option ℕ}

theorem length_writePermissions (bytes : Bytes) :
    (writePermissions permissions bytes).length = bytes.length := by
  fun_induction writePermissions permissions bytes with
  | case1 t₀ t₁ p₀ p₁ i₀ i₁ i₂ i₃ rest written ih =>
    have two : written.length = 2 := by
      simp only [written]
      split
      · exact length_leEncode 2 _
      · rfl
    simp [two, ih]
    omega
  | case2 rest _ => rfl

def rewritten (permissions : AclEntry → Option ℕ) (entry : AclEntry) : AclEntry :=
  { entry with permissions := ((permissions entry).getD entry.permissions) % 2 ^ 16 }

theorem decodeEntries_writePermissions (bytes : Bytes) :
    decodeEntries (writePermissions permissions bytes) =
      (decodeEntries bytes).map (rewritten permissions) := by
  fun_induction writePermissions permissions bytes with
  | case1 t₀ t₁ p₀ p₁ i₀ i₁ i₂ i₃ rest written ih =>
    have two : written.length = 2 := by
      simp only [written]
      split
      · exact length_leEncode 2 _
      · rfl
    have decoded : decodeEntry [t₀, t₁] written [i₀, i₁, i₂, i₃] =
        rewritten permissions (decodeEntry [t₀, t₁] [p₀, p₁] [i₀, i₁, i₂, i₃]) := by
      rw [rewritten, decodeEntry, AclEntry.mk.injEq]
      refine ⟨rfl, ?_, rfl⟩
      simp only [written]
      split
      · rename_i value chosen
        rw [chosen, leDecode_leEncode]
        rfl
      · rename_i chosen
        rw [chosen]
        have small : leDecode [p₀, p₁] < 2 ^ 16 := by
          simpa using leDecode_lt [p₀, p₁]
        exact (Nat.mod_eq_of_lt small).symm
    rcases length_eq_two.mp two with ⟨low, high, split⟩
    rw [split] at decoded ⊢
    simp [decodeEntries, ih, decoded]
  | case2 rest short =>
    cases entries : decodeEntries rest with
    | nil => rfl
    | cons entry others =>
      exfalso
      unfold decodeEntries at entries
      split at entries
      · exact short _ _ _ _ _ _ _ _ _ rfl
      · cases entries

theorem order_rewritten (entry : AclEntry) : (rewritten permissions entry).order = entry.order :=
  rfl

theorem scan_permissions (scanned : scan seen entries = some result) :
    ∀ entry ∈ entries, entry.permissions < 8 := by
  induction entries generalizing seen with
  | nil => simp
  | cons entry rest ih =>
    rw [scan] at scanned
    split at scanned
    · cases scanned
    · split at scanned
      · cases scanned
      · split at scanned
        · cases scanned
        · intro other mem
          rcases mem_cons.mp mem with rfl | later
          · omega
          · exact ih scanned other later

/-- New permissions of three bits do not change how the entries are ordered. -/
theorem scan_rewritten (bits : ∀ entry, ∀ value ∈ permissions entry, value < 8)
    (scanned : scan seen entries = some result) :
    scan seen (entries.map (rewritten permissions)) = some result := by
  induction entries generalizing seen with
  | nil => exact scanned
  | cons entry rest ih =>
    have below := scan_permissions scanned entry mem_cons_self
    have rewrittenBelow : (rewritten permissions entry).permissions < 8 := by
      simp only [rewritten]
      cases chosen : permissions entry with
      | none =>
        rw [Option.getD_none]
        omega
      | some value =>
        have bound := bits entry value chosen
        rw [Option.getD_some]
        omega
    rw [scan, if_neg (by omega)] at scanned
    rw [map_cons, scan, if_neg (by omega), order_rewritten]
    cases place : entry.order with
    | none =>
      rw [place] at scanned
      cases scanned
    | some order =>
      rw [place] at scanned
      simp only at scanned ⊢
      split at scanned
      · cases scanned
      · rename_i next
        rw [if_neg next]
        exact ih scanned

theorem WellFormed.writePermissions {value : Bytes} (formed : WellFormed value)
    (bits : ∀ entry, ∀ value ∈ permissions entry, value < 8) :
    WellFormed (value.take 4 ++ PosixAcl.writePermissions permissions (value.drop 4)) := by
  rcases formed with ⟨header, entries, version, seen, scanned, complete⟩
  have taken : (value.take 4).length = 4 := by
    rw [length_take]
    omega
  have sameLength : (value.take 4 ++ PosixAcl.writePermissions permissions (value.drop 4)).length =
      value.length := by
    rw [length_append, length_writePermissions, length_take, length_drop]
    omega
  refine ⟨?_, ?_, ?_, seen, ?_, complete⟩
  · rw [sameLength]
    exact header
  · rw [sameLength]
    exact entries
  · rw [take_append_of_le_length (by omega), take_take]
    exact version
  · rw [body, drop_append_of_le_length (by omega), drop_of_length_le (by omega),
      nil_append, decodeEntries_writePermissions]
    exact scan_rewritten bits scanned

end Write

/-- The permissions of the last entry with a tag. -/
def permissionsOf (tag : ℕ) (entries : List AclEntry) : Option ℕ :=
  (entries.filter fun entry => entry.tag = tag).getLast?.map AclEntry.permissions

theorem permissionsOf_lt (bits : ∀ entry ∈ entries, entry.permissions < 8) {tag : ℕ} :
    (permissionsOf tag entries).getD 0 < 8 := by
  rw [permissionsOf]
  cases last : (entries.filter fun entry => entry.tag = tag).getLast? with
  | none => simp
  | some entry =>
    have mem := mem_of_getLast? last
    exact bits entry (mem_filter.mp mem).1

end Fastdup.Library.PosixAcl
