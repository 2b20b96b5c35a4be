import Mathlib.Data.List.Basic
import Mathlib.Data.List.Nodup
import Mathlib.Logic.Function.Basic
import Mathlib.Tactic.Common

/-! Arrays as functions of the index: the list of the first elements, moving a part of the array
down by one place, the array repeated for ever, and the last value written to a place by a sequence
of block writes. -/
namespace LinuxPrograms.Lib

variable {α β : Type*}

/-- The elements `a[0]`, ..., `a[n-1]`. -/
def view (a : ℕ → α) (n : ℕ) : List α := (List.range n).map a

@[simp] theorem view_length (a : ℕ → α) (n : ℕ) : (view a n).length = n := by simp [view]

theorem view_getElem (a : ℕ → α) (n i : ℕ) (h : i < (view a n).length) : (view a n)[i] = a i := by
  simp [view]

theorem view_succ (a : ℕ → α) (n : ℕ) : view a (n+1) = view a n ++ [a n] := by
  rw [view, List.range_succ, List.map_append]
  rfl

theorem view_congr {a b : ℕ → α} {n : ℕ} (h : ∀ i < n, a i = b i) : view a n = view b n :=
  List.map_congr_left fun i hi => h i (List.mem_range.mp hi)

theorem mem_view {a : ℕ → α} {n : ℕ} {x : α} : x ∈ view a n ↔ ∃ i < n, a i = x := by
  simp [view]

/-- When all elements from some place on meet `p`, enough of the first hold any number of them. -/
theorem exists_le_countP_view {a : ℕ → α} {p : α → Bool} {k : ℕ} (h : ∀ i, k ≤ i → p (a i) = true)
    (m : ℕ) : ∃ n, m ≤ (view a n).countP p := by
  refine ⟨k+m, ?_⟩
  induction m with
  | zero => exact Nat.zero_le _
  | succ m ih =>
    have hlast : [a (k+m)].countP p = 1 := List.countP_cons_of_pos (h (k+m) (Nat.le_add_right k m))
    rw [← Nat.add_assoc, view_succ, List.countP_append, hlast]
    omega

/-- `for (j = i; j < i+n; j++) a[j] = a[j+1];` -/
def shiftDown (a : ℕ → α) (i : ℕ) : ℕ → ℕ → α
  | 0 => a
  | n+1 => shiftDown (Function.update a i (a (i+1))) (i+1) n

/-- Every element is read before it is overwritten. -/
theorem shiftDown_apply (a : ℕ → α) (i n k : ℕ) :
    shiftDown a i n k = if i ≤ k ∧ k < i+n then a (k+1) else a k := by
  induction n generalizing a i with
  | zero =>
    rw [if_neg (by omega)]
    rfl
  | succ n ih =>
    rw [shiftDown, ih]
    by_cases hk : k = i
    · subst hk
      rw [if_neg (by omega), if_pos (by omega), Function.update_self]
    · by_cases hin : i+1 ≤ k ∧ k < i+1+n
      · rw [if_pos hin, if_pos (by omega), Function.update_of_ne (by omega)]
      · rw [if_neg hin, if_neg (by omega), Function.update_of_ne hk]

/-- Moving the elements after `i` down takes `a[i]` out of the first `n`. -/
theorem view_shiftDown (a : ℕ → α) (n i : ℕ) (h : i < n) :
    view (shiftDown a i (n-1-i)) (n-1) = (view a n).eraseIdx i := by
  apply List.ext_getElem
  · rw [view_length, List.length_eraseIdx_of_lt (by rwa [view_length]), view_length]
  · intro k hk _
    rw [view_length] at hk
    rw [view_getElem, shiftDown_apply, List.getElem_eraseIdx]
    by_cases hki : k < i
    · rw [if_neg (by omega), dif_pos hki, view_getElem]
    · rw [if_pos (by omega), dif_neg hki, view_getElem]

/-- `a[0..m)` repeated for ever. -/
def cyclic (a : ℕ → α) (m k : ℕ) : α := a (k % m)

/-- A part of the repetition that does not pass the end of the array. -/
theorem view_cyclic_add (a : ℕ → α) {m n len : ℕ} (h : n % m+len ≤ m) :
    view (cyclic a m) (n+len) = view (cyclic a m) n ++ view (fun k => a (n % m+k)) len := by
  induction len with
  | zero => exact (List.append_nil _).symm
  | succ len ih =>
    have hmod : (n+len) % m = n % m+len := by
      rw [Nat.add_mod, Nat.add_mod_mod, Nat.mod_eq_of_lt (by omega)]
    rw [← Nat.add_assoc, view_succ, view_succ, ih (by omega), List.append_assoc, cyclic, hmod]

/-- The last value the blocks put at place `i`; a block is written from place 0 on. -/
def lastWritten (blocks : List (List α)) (i : ℕ) : Option α := (blocks.filterMap (·[i]?)).getLast?

theorem lastWritten_append (b₁ b₂ : List (List α)) (i : ℕ) :
    lastWritten (b₁ ++ b₂) i = (lastWritten b₂ i).or (lastWritten b₁ i) := by
  rw [lastWritten, List.filterMap_append, List.getLast?_append]
  rfl

theorem lastWritten_singleton (b : List α) (i : ℕ) : lastWritten [b] i = b[i]? := by
  unfold lastWritten
  cases h : b[i]? <;> simp [h]

/-- An array after a block has been written to it. -/
def writeBlock (a : ℕ → α) (b : List α) (i : ℕ) : α := b[i]?.getD (a i)

/-! A table of slots: what the slots of an index list hold, and how a write to one slot changes
it. -/

/-- What the slots of `l` hold, read by `g`. -/
def held (g : α → Option β) (a : ℕ → α) (l : List ℕ) : List β := l.filterMap (fun i => g (a i))

theorem mem_held {g : α → Option β} {a : ℕ → α} {l : List ℕ} {x : β} :
    x ∈ held g a l ↔ ∃ i ∈ l, g (a i) = some x :=
  List.mem_filterMap

theorem held_congr {g : α → Option β} {a b : ℕ → α} {l : List ℕ}
    (h : ∀ i ∈ l, g (a i) = g (b i)) : held g a l = held g b l :=
  List.filterMap_congr h

/-- One slot and the others. -/
theorem held_perm {g : α → Option β} (a : ℕ → α) {l : List ℕ} {j : ℕ} (hj : j ∈ l) :
    (held g a l).Perm ((g (a j)).toList ++ held g a (l.erase j)) := by
  have hcons := (List.perm_cons_erase hj).filterMap (fun i => g (a i))
  refine hcons.trans ?_
  unfold held
  cases h : g (a j) with
  | none =>
    simp only [List.filterMap_cons, h]
    exact .refl _
  | some x =>
    simp only [List.filterMap_cons, h]
    exact .refl _

theorem held_update_perm {g : α → Option β} (a : ℕ → α) {l : List ℕ} (hl : l.Nodup) {j : ℕ}
    (hj : j ∈ l) (x : α) :
    (held g (Function.update a j x) l).Perm ((g x).toList ++ held g a (l.erase j)) := by
  have hperm := held_perm (g := g) (Function.update a j x) hj
  rw [Function.update_self] at hperm
  refine hperm.trans ?_
  rw [held_congr (b := a)]
  intro i hi
  have hne : i ≠ j := by
    intro heq
    exact hl.not_mem_erase (heq ▸ hi)
  rw [Function.update_of_ne hne]

/-- What an array holds at the places that meet `p`, and at the others. -/
theorem held_filter_perm (g : α → Option β) (a : ℕ → α) (p : ℕ → Bool) (l : List ℕ) :
    (held g a l).Perm (held g a (l.filter p) ++ held g a (l.filter fun i => !p i)) := by
  have hperm := (List.filter_append_perm p l).symm.filterMap fun i => g (a i)
  rwa [List.filterMap_append] at hperm

theorem held_length (g : α → Option β) (a : ℕ → α) (l : List ℕ) :
    (held g a l).length = l.countP (fun i => (g (a i)).isSome) := by
  rw [held, List.length_filterMap_eq_countP]

end LinuxPrograms.Lib
