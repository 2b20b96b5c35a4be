import Mathlib.Algebra.BigOperators.Group.List.Basic
import Mathlib.Algebra.Ring.Nat
import Mathlib.Data.List.Perm.Basic
import Mathlib.Tactic.Common

/-! A list of threads of which one moves at a time: what the move does to counts and sums over the
threads, and to what they hold together. -/
namespace LinuxPrograms.Lib

variable {α β : Type*} {l : List α} {i : ℕ} {x : α}

/-- The thread that moves, and the others. -/
theorem exists_others (h : l[i]? = some x) :
    ∃ rest, l.Perm (x :: rest) ∧ ∀ y, (l.set i y).Perm (y :: rest) := by
  obtain ⟨hi, hx⟩ := List.getElem?_eq_some_iff.mp h
  refine ⟨l.eraseIdx i, ?_, fun y => List.set_perm_cons_eraseIdx hi y⟩
  have hperm := List.getElem_cons_eraseIdx_perm hi
  rw [hx] at hperm
  exact hperm.symm

theorem countP_cons_toNat (p : α → Bool) (x : α) (l : List α) :
    (x :: l).countP p = l.countP p+(p x).toNat := by
  rw [List.countP_cons]
  cases p x <;> rfl

theorem sum_set (f : α → ℕ) (h : l[i]? = some x) (y : α) :
    ((l.set i y).map f).sum+f x = (l.map f).sum+f y := by
  obtain ⟨rest, hl, hset⟩ := exists_others h
  have hold := (hl.map f).sum_eq
  have hnew := ((hset y).map f).sum_eq
  rw [List.map_cons, List.sum_cons] at hold hnew
  omega

theorem countP_set (p : α → Bool) (h : l[i]? = some x) (y : α) :
    (l.set i y).countP p+(p x).toNat = l.countP p+(p y).toNat := by
  obtain ⟨rest, hl, hset⟩ := exists_others h
  rw [hl.countP_eq p, (hset y).countP_eq p, countP_cons_toNat, countP_cons_toNat]
  omega

theorem countP_concat (p : α → Bool) (l : List α) (x : α) :
    (l ++ [x]).countP p = l.countP p+(p x).toNat := by
  rw [List.countP_append, countP_cons_toNat, List.countP_nil, Nat.zero_add]

/-- What the threads hold together. -/
theorem filterMap_set (f : α → Option β) (h : l[i]? = some x) :
    ∃ rest, (l.filterMap f).Perm ((f x).toList ++ rest) ∧
      ∀ y, ((l.set i y).filterMap f).Perm ((f y).toList ++ rest) := by
  have hcons (y : α) (rest : List α) :
      (y :: rest).filterMap f = (f y).toList ++ rest.filterMap f := by
    rw [List.filterMap_cons]
    cases f y with
    | none => rfl
    | some b => rfl
  obtain ⟨rest, hl, hset⟩ := exists_others h
  refine ⟨rest.filterMap f, ?_, fun y => ?_⟩
  · rw [← hcons]
    exact hl.filterMap f
  · rw [← hcons]
    exact (hset y).filterMap f

theorem filterMap_set_of_eq {f : α → Option β} {y : α} (h : l[i]? = some x) (hxy : f y = f x) :
    ((l.set i y).filterMap f).Perm (l.filterMap f) := by
  obtain ⟨rest, hl, hset⟩ := filterMap_set f h
  have hnew := hset y
  rw [hxy] at hnew
  exact hnew.trans hl.symm

/-- A thread after the move is the one that moved, or one of the others. -/
theorem getElem?_set_cases {j : ℕ} {y z : α} (h : (l.set i y)[j]? = some z) :
    j = i ∧ z = y ∨ j ≠ i ∧ l[j]? = some z := by
  by_cases hj : j = i
  · left
    subst hj
    have hlt := (List.getElem?_eq_some_iff.mp h).1
    rw [List.length_set] at hlt
    rw [List.getElem?_set_self hlt] at h
    exact ⟨rfl, (Option.some.inj h).symm⟩
  · right
    rw [List.getElem?_set_ne (Ne.symm hj)] at h
    exact ⟨hj, h⟩

/-- What all threads meet, they meet after the move if the new place meets it. -/
theorem forall_mem_set {P : α → Prop} {y : α} (h : ∀ z ∈ l, P z) (hy : P y) :
    ∀ z ∈ l.set i y, P z := by
  intro z hz
  rcases List.mem_or_eq_of_mem_set hz with hz | rfl
  · exact h z hz
  · exact hy

end LinuxPrograms.Lib
