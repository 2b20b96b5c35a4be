import Mathlib.Data.Nat.Init
import Mathlib.Tactic.Common

/-! Loops whose rounds may have no defined result, and the rule that proves that such a loop ends
and what it returns. -/
namespace LinuxPrograms.Lib

variable {σ ρ : Type*}

/-- How a round ends: the loop goes on, or it is left. -/
inductive Round (σ ρ : Type*)
  | again (s : σ)
  | left (r : ρ)

/-- A loop of at most the given number of rounds; `none` also says that they were not enough. -/
def loop (body : σ → Option (Round σ ρ)) : ℕ → σ → Option ρ
  | 0, _ => none
  | n+1, s =>
    match body s with
    | none => none
    | some (.again s') => loop body n s'
    | some (.left r) => some r

variable {body : σ → Option (Round σ ρ)} {n m : ℕ} {s s' : σ} {r r' : ρ}

theorem loop_again (h : body s = some (.again s')) : loop body (n+1) s = loop body n s' := by
  rw [loop, h]

theorem loop_left (h : body s = some (.left r)) : loop body (n+1) s = some r := by
  rw [loop, h]

/-- More rounds than are needed change nothing. -/
theorem loop_mono (h : loop body n s = some r) (hle : n ≤ m) : loop body m s = some r := by
  induction n generalizing s m with
  | zero => cases h
  | succ n ih =>
    obtain ⟨m, rfl⟩ := Nat.exists_eq_add_of_lt (Nat.lt_of_succ_le hle)
    rw [loop] at h
    cases hbody : body s with
    | none =>
      rw [hbody] at h
      cases h
    | some round =>
      rw [hbody] at h
      cases round with
      | again s' =>
        rw [loop_again hbody]
        exact ih h (by omega)
      | left r' => rwa [loop_left hbody]

/-- There is one result. -/
theorem loop_unique (h : loop body n s = some r) (h' : loop body m s = some r') : r = r' := by
  have hn := loop_mono h (Nat.le_add_right n m)
  have hm := loop_mono h' (Nat.le_add_left m n)
  exact Option.some.inj (hn.symm.trans hm)

/-- The rule: each round from a state with `I n` leaves the loop with `Q`, or leads to a state with
`I m` for a smaller `m`. -/
theorem loop_ends {I : ℕ → σ → Prop} {Q : ρ → Prop}
    (hround : ∀ n s, I n s → (∃ r, body s = some (.left r) ∧ Q r) ∨
      ∃ s' m, body s = some (.again s') ∧ m < n ∧ I m s')
    (hs : I n s) : ∃ r, loop body (n+1) s = some r ∧ Q r := by
  induction n using Nat.strong_induction_on generalizing s with
  | _ n ih =>
    rcases hround n s hs with ⟨r, hbody, hr⟩ | ⟨s', m, hbody, hlt, hs'⟩
    · exact ⟨r, loop_left hbody, hr⟩
    · obtain ⟨r, hloop, hr⟩ := ih m hlt hs'
      refine ⟨r, ?_, hr⟩
      rw [loop_again hbody]
      exact loop_mono hloop (Nat.succ_le_of_lt hlt)

end LinuxPrograms.Lib
