import LinuxPrograms.LibNumerals
import Mathlib.Data.BitVec

/-! `userIdFromName` and its siblings (users_groups, ugid_functions.c), which take a number where a
name is expected. -/
namespace LinuxPrograms.UgidFunctions
open Lib

/-- `uid_t` and `gid_t`. -/
abbrev Id := BitVec 32

/-- The password and the group file: the names and the numbers of their entries. -/
structure Database where
  getpwuid : Id → Option (List UInt8)
  getpwnam : List UInt8 → Option Id
  getgrgid : Id → Option (List UInt8)
  getgrnam : List UInt8 → Option Id

def userNameFromId (db : Database) (uid : Id) : Option (List UInt8) := db.getpwuid uid

def groupNameFromId (db : Database) (gid : Id) : Option (List UInt8) := db.getgrgid gid

/-- `getnam` finds the entry. -/
def idFromName (getnam : List UInt8 → Option Id) (name : Option (List UInt8)) : Id :=
  match name with
  | none | some [] => -1
  | some name =>
    if (strtol 10 name).endptr = [] then BitVec.ofInt 32 (strtol 10 name).res
    else (getnam name).getD (-1)

def userIdFromName (db : Database) (name : Option (List UInt8)) : Id :=
  idFromName db.getpwnam name

def groupIdFromName (db : Database) (name : Option (List UInt8)) : Id :=
  idFromName db.getgrnam name

variable {getnam : List UInt8 → Option Id} {name : List UInt8} {v : ℤ}

/-- A numeral is taken for its number, whatever the database says. -/
theorem idFromName_numeral (h : Numeral 10 name v) :
    idFromName getnam (some name) = BitVec.ofInt 32 (toLong v) := by
  cases name with
  | nil => exact (h.ne_nil rfl).elim
  | cons c name =>
    have hread := strtol_numeral h
    simp only [idFromName, hread]
    rfl

/-- Any other name is looked up. -/
theorem idFromName_lookup (hne : name ≠ []) (h : ∀ v, ¬Numeral 10 name v) :
    idFromName getnam (some name) = (getnam name).getD (-1) := by
  cases name with
  | nil => exact (hne rfl).elim
  | cons c name =>
    have hend : ¬(strtol 10 (c :: name)).endptr = [] := by
      intro hend
      rcases strtol_endptr hend with hnil | ⟨v, hv⟩
      · cases hnil
      · exact h v hv
    simp only [idFromName, if_neg hend]

theorem ofInt_eq_zero_iff (x : ℤ) : BitVec.ofInt 32 x = 0 ↔ x % 4294967296 = 0 := by
  rw [← BitVec.toNat_inj, BitVec.toNat_ofInt]
  change (x % 4294967296).toNat = 0 ↔ _
  omega

/-- Nobody but root, and no groups. -/
def rootOnly : Database where
  getpwuid uid := if uid = 0 then some (bytes "root") else none
  getpwnam name := if name = bytes "root" then some 0 else none
  getgrgid _ := none
  getgrnam _ := none

/-- The numerals that stand for root: those too small for a `long`, and the multiples of 2^32 that
are not too large. -/
theorem root_numerals (db : Database) {name : List UInt8} {v : ℤ} (h : Numeral 10 name v) :
    userIdFromName db (some name) = 0 ↔ v < longMin ∨ v ≤ longMax ∧ v % 4294967296 = 0 := by
  rw [userIdFromName, idFromName_numeral h, ofInt_eq_zero_iff, toLong, longMin, longMax]
  omega

/-- `-9223372036854775809`. -/
theorem root_numerals_small :
    userIdFromName rootOnly (some (printed 10 (-9223372036854775809))) = 0 ↔
      -9223372036854775809 < longMin ∨
        -9223372036854775809 ≤ longMax ∧ (-9223372036854775809 : ℤ) % 4294967296 = 0 :=
  root_numerals rootOnly (numeral_printed (fun n => Digits.inBase (by decide) (by decide) n) _)

/-! Back from a name or a number to the entry. -/

/-- An entry found by its number is found by its name. -/
structure Consistent (db : Database) : Prop where
  passwd : ∀ uid name, db.getpwuid uid = some name → db.getpwnam name = some uid
  group : ∀ gid name, db.getgrgid gid = some name → db.getgrnam name = some gid

theorem idFromName_printed (id : Id) : idFromName getnam (some (printed 10 id.toNat)) = id := by
  have h : Numeral 10 (printed 10 (id.toNat : ℤ)) id.toNat :=
    numeral_printed (fun n => Digits.inBase (by decide) (by decide) n) _
  have hlt := id.isLt
  rw [idFromName_numeral h, toLong_of_fits (by rw [longMin]; omega) (by rw [longMax]; omega),
    BitVec.ofInt_natCast, BitVec.ofNat_toNat, BitVec.setWidth_eq]

theorem idFromName_iff {id : Id} (hne : name ≠ []) (hget : getnam name = some id) :
    idFromName getnam (some name) = id ↔
      ∀ v, Numeral 10 name v → BitVec.ofInt 32 (toLong v) = id := by
  by_cases hnum : ∃ v, Numeral 10 name v
  · obtain ⟨v, hv⟩ := hnum
    rw [idFromName_numeral hv]
    constructor
    · intro h w hw
      rwa [hw.unique hv]
    · intro h
      exact h v hv
  · rw [not_exists] at hnum
    rw [idFromName_lookup hne hnum, hget]
    exact iff_of_true rfl fun v hv => (hnum v hv).elim

/-- A number in print is taken for itself. The name that `userNameFromId` finds for a number leads
back to it exactly if it is not a numeral, or one that stands for the same number; and so for
groups. -/
theorem id_round_trips {db : Database} (hdb : Consistent db) (id : Id) {name : List UInt8}
    (hne : name ≠ []) :
    userIdFromName db (some (printed 10 id.toNat)) = id ∧
    groupIdFromName db (some (printed 10 id.toNat)) = id ∧
    (userNameFromId db id = some name →
      (userIdFromName db (some name) = id ↔
        ∀ v, Numeral 10 name v → BitVec.ofInt 32 (toLong v) = id)) ∧
    (groupNameFromId db id = some name →
      (groupIdFromName db (some name) = id ↔
        ∀ v, Numeral 10 name v → BitVec.ofInt 32 (toLong v) = id)) := by
  refine ⟨idFromName_printed id, idFromName_printed id, fun h => ?_, fun h => ?_⟩
  · exact idFromName_iff hne (hdb.passwd id name h)
  · exact idFromName_iff hne (hdb.group id name h)

/-- User 42 has the name `43`, and group 42 is `staff`. -/
def oddNames : Database where
  getpwuid uid := if uid = 42 then some (bytes "43") else none
  getpwnam name := if name = bytes "43" then some 42 else none
  getgrgid gid := if gid = 42 then some (bytes "staff") else none
  getgrnam name := if name = bytes "staff" then some 42 else none

theorem oddNames_consistent : Consistent oddNames := by
  constructor <;> intro id name h
  all_goals
    unfold oddNames at h ⊢
    dsimp only at h ⊢
    split at h
    · next hid =>
      cases h
      rw [if_pos rfl, hid]
    · cases h

/-- The user is taken for another one, and the group is found. -/
theorem id_round_trips_odd :
    userIdFromName oddNames (some (bytes "43")) ≠ 42 ∧
      groupIdFromName oddNames (some (bytes "staff")) = 42 := by
  constructor
  · intro h
    have hother := ((id_round_trips oddNames_consistent 42 (show bytes "43" ≠ [] by decide)).2.2.1
      rfl).mp h 43 (numeral_printed (fun n => Digits.inBase (by decide) (by decide) n) 43)
    revert hother
    decide
  · refine ((id_round_trips oddNames_consistent 42 (show bytes "staff" ≠ [] by decide)).2.2.2
      rfl).mpr fun v hv => ?_
    have hend : (strtol 10 (bytes "staff")).endptr = [] := by rw [strtol_numeral hv]
    exact absurd hend (by decide)

end LinuxPrograms.UgidFunctions
