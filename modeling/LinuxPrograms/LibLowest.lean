import Mathlib.Data.Nat.Nth

/-! Numbers handed out by taking the lowest one that is not in use, as descriptors are. -/
namespace LinuxPrograms.Lib

theorem exists_free (used : Finset ℕ) : ∃ n, n ∉ used := Infinite.exists_notMem_finset used

/-- The lowest number not in use. -/
def lowestFree (used : Finset ℕ) : ℕ := Nat.find (exists_free used)

theorem lowestFree_notMem (used : Finset ℕ) : lowestFree used ∉ used :=
  Nat.find_spec (exists_free used)

theorem lowestFree_eq_zero {used : Finset ℕ} (h : 0 ∉ used) : lowestFree used = 0 :=
  (Nat.find_eq_zero _).mpr h

theorem free_infinite (used : Finset ℕ) : (Set.ofPred (· ∉ used)).Infinite :=
  used.finite_toSet.infinite_compl

/-- The `k`-th number not in use. -/
noncomputable def freeNumber (used : Finset ℕ) (k : ℕ) : ℕ := Nat.nth (· ∉ used) k

theorem freeNumber_injective (used : Finset ℕ) : Function.Injective (freeNumber used) :=
  Nat.nth_injective (free_infinite used)

/-- What is in use when `k` numbers have been handed out. -/
noncomputable def usedAfter (used : Finset ℕ) (k : ℕ) : Finset ℕ :=
  used ∪ (Finset.range k).image (freeNumber used)

theorem usedAfter_zero (used : Finset ℕ) : usedAfter used 0 = used := by
  rw [usedAfter, Finset.range_zero, Finset.image_empty, Finset.union_empty]

theorem usedAfter_succ (used : Finset ℕ) (k : ℕ) :
    usedAfter used (k+1) = insert (freeNumber used k) (usedAfter used k) := by
  rw [usedAfter, Finset.range_add_one, Finset.image_insert, Finset.union_insert]
  rfl

/-- The numbers are handed out in order. -/
theorem lowestFree_usedAfter (used : Finset ℕ) (k : ℕ) :
    lowestFree (usedAfter used k) = freeNumber used k := by
  rw [lowestFree, Nat.find_eq_iff]
  constructor
  · intro hmem
    rcases Finset.mem_union.mp hmem with hold | hnew
    · exact Nat.nth_mem_of_infinite (free_infinite used) k hold
    · obtain ⟨j, hj, heq⟩ := Finset.mem_image.mp hnew
      exact absurd (freeNumber_injective used heq) (Nat.ne_of_lt (Finset.mem_range.mp hj))
  · intro n hn
    rw [not_not]
    by_cases hused : n ∈ used
    · exact Finset.mem_union_left _ hused
    · -- a lower number that was free has been handed out
      have hnth : freeNumber used (Nat.count (· ∉ used) n) = n := Nat.nth_count hused
      refine Finset.mem_union_right _ (Finset.mem_image.mpr ⟨_, Finset.mem_range.mpr ?_, hnth⟩)
      rw [← hnth] at hn
      exact (Nat.nth_lt_nth (free_infinite used)).mp hn

/-- How many numbers below a bound are in use. -/
def usedBelow (used : Finset ℕ) (bound : ℕ) : ℕ := (used.filter (· < bound)).card

theorem usedBelow_add_count (used : Finset ℕ) (bound : ℕ) :
    usedBelow used bound+Nat.count (· ∉ used) bound = bound := by
  have hbelow : used.filter (· < bound) = (Finset.range bound).filter (· ∈ used) := by
    ext n
    rw [Finset.mem_filter, Finset.mem_filter, Finset.mem_range, and_comm]
  rw [usedBelow, hbelow, Nat.count_eq_card_filter_range, Finset.card_filter_add_card_filter_not,
    Finset.card_range]

/-- The `k`-th number handed out is below a bound when enough are free there. -/
theorem freeNumber_lt_iff (used : Finset ℕ) (k bound : ℕ) :
    freeNumber used k < bound ↔ k+usedBelow used bound < bound := by
  have hcount := usedBelow_add_count used bound
  have hlt : freeNumber used k < bound ↔ k < Nat.count (· ∉ used) bound :=
    (Nat.lt_nth_iff_count_lt (free_infinite used)).symm
  rw [hlt]
  omega

end LinuxPrograms.Lib
