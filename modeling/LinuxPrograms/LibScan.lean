import Mathlib.Order.Lattice
import Mathlib.Data.List.Basic
import Mathlib.Tactic.Common

/-! A linear scan for the first greatest element above a bound. -/
namespace LinuxPrograms.Lib

variable {ι β : Type*} [LinearOrder β] (f : ι → β) (p : ι → Prop) [DecidablePred p]

/-- One step of the scan: the best so far and its value. -/
def bestStep (best : Option ι × β) (i : ι) : Option ι × β :=
  if best.2 < f i ∧ p i then (some i, f i) else best

/-- `best` is what the scan of `l` has found above `b`. -/
structure IsBest (b : β) (l : List ι) (best : Option ι × β) : Prop where
  bound : b ≤ best.2
  le : ∀ i ∈ l, p i → f i ≤ best.2
  nothing : best.1 = none → best.2 = b
  first : ∀ v, best.1 = some v → p v ∧ f v = best.2 ∧ b < f v ∧
    ∃ l₁ l₂, l = l₁ ++ v :: l₂ ∧ ∀ i ∈ l₁, p i → f i < f v

variable {f p}

omit [DecidablePred p] in
theorem isBest_nil (b : β) : IsBest f p b [] (none, b) :=
  ⟨le_refl b, nofun, fun _ => rfl, nofun⟩

theorem IsBest.step {b : β} {l : List ι} {best : Option ι × β} (h : IsBest f p b l best) (i : ι) :
    IsBest f p b (l ++ [i]) (bestStep f p best i) := by
  unfold bestStep
  split
  case isTrue hbetter =>
    refine ⟨le_trans h.bound (le_of_lt hbetter.1), ?_, nofun, ?_⟩
    · intro k hk hp
      rcases List.mem_append.mp hk with hold | hnew
      · exact le_trans (h.le k hold hp) (le_of_lt hbetter.1)
      · rw [List.mem_singleton.mp hnew]
    · intro v hv
      rw [Option.some.injEq] at hv
      subst hv
      refine ⟨hbetter.2, rfl, lt_of_le_of_lt h.bound hbetter.1, l, [], rfl, ?_⟩
      exact fun k hk hp => lt_of_le_of_lt (h.le k hk hp) hbetter.1
  case isFalse hworse =>
    refine ⟨h.bound, ?_, h.nothing, ?_⟩
    · intro k hk hp
      rcases List.mem_append.mp hk with hold | hnew
      · exact h.le k hold hp
      · rw [List.mem_singleton.mp hnew] at hp ⊢
        exact le_of_not_gt fun hlt => hworse ⟨hlt, hp⟩
    · intro v hv
      obtain ⟨hp, hval, hlt, l₁, l₂, hl, hbefore⟩ := h.first v hv
      refine ⟨hp, hval, hlt, l₁, l₂ ++ [i], ?_, hbefore⟩
      rw [hl, List.append_assoc, List.cons_append]

theorem IsBest.foldl {b : β} {l l' : List ι} {best : Option ι × β} (h : IsBest f p b l best) :
    IsBest f p b (l ++ l') (l'.foldl (bestStep f p) best) := by
  induction l' generalizing l best with
  | nil => rwa [List.append_nil]
  | cons i l' ih =>
    have hrest := ih (h.step i)
    rwa [List.append_assoc] at hrest

theorem foldl_bestStep (b : β) (l : List ι) :
    IsBest f p b l (l.foldl (bestStep f p) (none, b)) :=
  (isBest_nil b).foldl

/-- The scan finds nothing exactly when nothing is above the bound. -/
theorem foldl_bestStep_none {b : β} {l : List ι} :
    (l.foldl (bestStep f p) (none, b)).1 = none ↔ ∀ i ∈ l, p i → f i ≤ b := by
  have hbest := foldl_bestStep (f := f) (p := p) b l
  constructor
  · intro hnone i hi hp
    rw [← hbest.nothing hnone]
    exact hbest.le i hi hp
  · intro hall
    cases hfound : (l.foldl (bestStep f p) (none, b)).1 with
    | none => rfl
    | some v =>
      obtain ⟨hp, -, hlt, l₁, l₂, hl, -⟩ := hbest.first v hfound
      have hmem : v ∈ l := by rw [hl]; simp
      exact absurd hlt (not_lt_of_ge (hall v hmem hp))

/-- In a list in increasing order: the first of the greatest elements above the bound. -/
theorem foldl_bestStep_some [LinearOrder ι] {b : β} {l : List ι} (hl : l.Pairwise (· < ·)) {v : ι}
    (h : (l.foldl (bestStep f p) (none, b)).1 = some v) :
    (v ∈ l ∧ p v ∧ b < f v) ∧ (∀ i ∈ l, p i → f i ≤ f v) ∧ ∀ i ∈ l, i < v → p i → f i < f v := by
  have hbest := foldl_bestStep (f := f) (p := p) b l
  obtain ⟨hp, hval, hlt, l₁, l₂, hsplit, hbefore⟩ := hbest.first v h
  refine ⟨⟨by rw [hsplit]; simp, hp, hlt⟩, fun i hi hpi => hval ▸ hbest.le i hi hpi, ?_⟩
  intro i hi hiv hpi
  apply hbefore i _ hpi
  -- what stands after `v` is greater than `v`
  rw [hsplit, List.pairwise_append] at hl
  rw [hsplit] at hi
  rcases List.mem_append.mp hi with hi | hi
  · exact hi
  · rcases List.mem_cons.mp hi with rfl | hafter
    · exact absurd hiv (lt_irrefl i)
    · have hgt := (List.pairwise_cons.mp hl.2.1).1 i hafter
      exact absurd hiv (not_lt_of_gt hgt)

end LinuxPrograms.Lib
