import Mathlib.Data.BitVec

/-! Words of flags, and updates that give some of their bits fixed values: what such updates do one
after the other, and which fields of the word before they let show through. -/
namespace LinuxPrograms.Lib

/-- The bits in `mask` get the value they have in `value`; the others stay. -/
structure FlagUpdate (w : ℕ) where
  mask : BitVec w
  value : BitVec w
  inside : value &&& ~~~mask = 0

namespace FlagUpdate

variable {w : ℕ}

def apply (u : FlagUpdate w) (x : BitVec w) : BitVec w := (x &&& ~~~u.mask) ||| u.value

/-- `x |= a`. -/
def setBits (a : BitVec w) : FlagUpdate w := ⟨a, a, by ext i; simp⟩

/-- `x &= ~a`. -/
def clearBits (a : BitVec w) : FlagUpdate w := ⟨a, 0, by ext i; simp⟩

def keep : FlagUpdate w := ⟨0, 0, by ext i; simp⟩

/-- `u`, and then `v`. -/
def andThen (u v : FlagUpdate w) : FlagUpdate w :=
  ⟨u.mask ||| v.mask, (u.value &&& ~~~v.mask) ||| v.value, by
    have hu := u.inside
    have hv := v.inside
    ext i hi
    have hui := congrArg (fun x => x[i]) hu
    have hvi := congrArg (fun x => x[i]) hv
    simp at hui hvi ⊢
    grind⟩

theorem apply_setBits (a x : BitVec w) : (setBits a).apply x = x ||| a := by
  ext i
  simp [setBits, apply]
  grind

theorem apply_clearBits (a x : BitVec w) : (clearBits a).apply x = x &&& ~~~a := by
  ext i
  simp [clearBits, apply]

theorem apply_keep (x : BitVec w) : keep.apply x = x := by
  ext i
  simp [keep, apply]

theorem apply_andThen (u v : FlagUpdate w) (x : BitVec w) :
    (u.andThen v).apply x = v.apply (u.apply x) := by
  ext i
  simp [andThen, apply]
  grind

/-- Once more changes nothing. -/
theorem apply_apply (u : FlagUpdate w) (x : BitVec w) : u.apply (u.apply x) = u.apply x := by
  ext i
  simp [apply]
  grind

/-! Fields: groups of bits. -/

/-- All of the field gets new values. -/
def Covers (u : FlagUpdate w) (field : BitVec w) : Prop := field &&& ~~~u.mask = 0

/-- All of the field stays. -/
def Avoids (u : FlagUpdate w) (field : BitVec w) : Prop := field &&& u.mask = 0

instance (u : FlagUpdate w) (field : BitVec w) : Decidable (u.Covers field) :=
  inferInstanceAs (Decidable (field &&& ~~~u.mask = 0))

instance (u : FlagUpdate w) (field : BitVec w) : Decidable (u.Avoids field) :=
  inferInstanceAs (Decidable (field &&& u.mask = 0))

section Field

variable {u v : FlagUpdate w} {field : BitVec w}

theorem Avoids.part {part : BitVec w} (h : u.Avoids field) (hpart : part &&& field = part) :
    u.Avoids part := by
  unfold Avoids at h ⊢
  calc part &&& u.mask = part &&& field &&& u.mask := by rw [hpart]
    _ = 0 := by
      rw [BitVec.and_assoc, h]
      exact BitVec.and_zero

theorem Covers.part {part : BitVec w} (h : u.Covers field) (hpart : part &&& field = part) :
    u.Covers part := by
  unfold Covers at h ⊢
  calc part &&& ~~~u.mask = part &&& field &&& ~~~u.mask := by rw [hpart]
    _ = 0 := by
      rw [BitVec.and_assoc, h]
      exact BitVec.and_zero

/-- A field that is covered does not depend on the word before. -/
theorem Covers.apply_and (h : u.Covers field) (x : BitVec w) :
    u.apply x &&& field = u.value &&& field := by
  ext i hi
  have hbit := congrArg (fun y => y[i]) h
  simp [apply] at hbit ⊢
  grind

/-- A field that is avoided is what it was. -/
theorem Avoids.apply_and (h : u.Avoids field) (x : BitVec w) :
    u.apply x &&& field = x &&& field := by
  have hin := u.inside
  ext i hi
  have hbit := congrArg (fun y => y[i]) h
  have hinbit := congrArg (fun y => y[i]) hin
  simp [apply] at hbit hinbit ⊢
  grind

theorem Avoids.andThen (hu : u.Avoids field) (hv : v.Avoids field) :
    (u.andThen v).Avoids field := by
  unfold Avoids at hu hv ⊢
  ext i hi
  have hubit := congrArg (fun y => y[i]) hu
  have hvbit := congrArg (fun y => y[i]) hv
  simp [FlagUpdate.andThen] at hubit hvbit ⊢
  grind

/-- Only the update that comes first counts for a field that the second one avoids. -/
theorem Avoids.andThen_apply_and (hv : v.Avoids field) (x : BitVec w) :
    (u.andThen v).apply x &&& field = u.apply x &&& field := by
  rw [apply_andThen]
  exact hv.apply_and _

/-- Only the second update counts for a field that it covers. -/
theorem Covers.andThen_apply_and (hv : v.Covers field) (x : BitVec w) :
    (u.andThen v).apply x &&& field = v.value &&& field := by
  rw [apply_andThen]
  exact hv.apply_and _

end Field

end FlagUpdate

/-- Words that agree on a field agree on each part of it. -/
theorem and_part {w : ℕ} {x y field part : BitVec w} (h : x &&& field = y &&& field)
    (hpart : part &&& field = part) : x &&& part = y &&& part := by
  calc x &&& part = x &&& field &&& part := by
        rw [BitVec.and_assoc, BitVec.and_comm field, hpart]
    _ = y &&& field &&& part := by rw [h]
    _ = y &&& part := by rw [BitVec.and_assoc, BitVec.and_comm field, hpart]

/-- Words that agree on two fields agree on the two together. -/
theorem and_or_eq {w : ℕ} {x y field field' : BitVec w} (h : x &&& field = y &&& field)
    (h' : x &&& field' = y &&& field') : x &&& (field ||| field') = y &&& (field ||| field') := by
  rw [BitVec.and_or_distrib_left, BitVec.and_or_distrib_left, h, h']

/-- A single flag is the same in two words if it is off in both or in neither. -/
theorem and_twoPow_eq_iff {w : ℕ} (x y : BitVec w) (i : ℕ) :
    x &&& BitVec.twoPow w i = y &&& BitVec.twoPow w i ↔
      (x &&& BitVec.twoPow w i = 0 ↔ y &&& BitVec.twoPow w i = 0) := by
  constructor
  · intro h
    rw [h]
  · intro h
    rw [BitVec.and_twoPow, BitVec.and_twoPow] at h ⊢
    split at h <;> split at h <;> simp_all

end LinuxPrograms.Lib
