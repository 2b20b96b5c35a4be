import Mathlib.Data.List.Basic
import Mathlib.Tactic.Common

/-! First-in-first-out queues: the abstract queue as a list, machines that answer each call, the
rule by which a machine is shown to answer as its specification, and cyclic segments of an array. -/
namespace LinuxPrograms.Lib

variable {α β κ σ τ : Type*}

/-- The queue after an `enqueue`, and whether it succeeded; `room` says whether it may. -/
def enqueue (room : Bool) (x : α) (xs : List α) : List α × Bool :=
  if room then (xs ++ [x], true) else (xs, false)

/-- The queue after a `dequeue`, and the item it yields. -/
def dequeue : List α → List α × Option α
  | [] => ([], none)
  | x :: xs => (xs, some x)

/-! Machines. A call that has no defined result stops the machine. -/

/-- The answers to a list of calls. -/
def answers (step : σ → κ → Option (σ × β)) : σ → List κ → Option (σ × List β)
  | s, [] => some (s, [])
  | s, a :: as =>
    (step s a).bind fun p => (answers step p.1 as).map fun q => (q.1, p.2 :: q.2)

/-- The answers of a specification, which always has one. -/
def specAnswers (spec : τ → κ → τ × β) : τ → List κ → τ × List β
  | t, [] => (t, [])
  | t, a :: as =>
    let rest := specAnswers spec (spec t a).1 as
    (rest.1, (spec t a).2 :: rest.2)

/-- Each call is legal in the state it is made in. -/
def LegalCalls (legal : σ → κ → Prop) (step : σ → κ → Option (σ × β)) : σ → List κ → Prop
  | _, [] => True
  | s, a :: as =>
    legal s a ∧ match step s a with
      | some p => LegalCalls legal step p.1 as
      | none => True

/-- Related states stay related, and the machine has an answer, that of the specification. -/
def Simulates (step : σ → κ → Option (σ × β)) (spec : τ → κ → τ × β) (legal : σ → κ → Prop)
    (R : σ → τ → Prop) : Prop :=
  ∀ s t a, R s t → legal s a → ∃ s', step s a = some (s', (spec t a).2) ∧ R s' (spec t a).1

/-- A simulation carries over to every list of calls. -/
theorem Simulates.answers {step : σ → κ → Option (σ × β)} {spec : τ → κ → τ × β}
    {legal : σ → κ → Prop} {R : σ → τ → Prop} (h : Simulates step spec legal R) {s : σ} {t : τ}
    {as : List κ} (hst : R s t) (hlegal : LegalCalls legal step s as) :
    ∃ s', answers step s as = some (s', (specAnswers spec t as).2) ∧
      R s' (specAnswers spec t as).1 := by
  induction as generalizing s t with
  | nil => exact ⟨s, rfl, hst⟩
  | cons a as ih =>
    obtain ⟨hfirst, hrest⟩ := hlegal
    obtain ⟨s₁, hstep, hst₁⟩ := h s t a hst hfirst
    rw [hstep] at hrest
    obtain ⟨s', hanswers, hst'⟩ := ih hst₁ hrest
    refine ⟨s', ?_, hst'⟩
    rw [Lib.answers, hstep, Option.bind_some, hanswers]
    rfl

theorem legalCalls_of_forall {legal : σ → κ → Prop} {step : σ → κ → Option (σ × β)}
    (h : ∀ s a, legal s a) (s : σ) (as : List κ) : LegalCalls legal step s as := by
  induction as generalizing s with
  | nil => trivial
  | cons a as ih =>
    refine ⟨h s a, ?_⟩
    split
    · exact ih _
    · trivial

/-! Cyclic segments. -/

/-- `xs` stands in the first `q` places of `a` from place `h` on, cyclically, and leaves one
free. -/
structure Segment (a : List α) (q h : ℕ) (xs : List α) : Prop where
  block : a.length = q
  start : h < q
  room : xs.length < q
  item : ∀ k (hk : k < xs.length), a[(h+k)%q]? = some xs[k]

/-- A place of the cycle, without the remainder. -/
theorem add_mod_cases {q h k : ℕ} (hh : h < q) (hk : k < q) :
    (h+k)%q = if h+k < q then h+k else h+k-q := by
  split
  · next hlt => exact Nat.mod_eq_of_lt hlt
  · next hge => rw [Nat.mod_eq_sub_mod (by omega), Nat.mod_eq_of_lt (by omega)]

theorem add_mod_injective {q h k l : ℕ} (hh : h < q) (hk : k < q) (hl : l < q)
    (heq : (h+k)%q = (h+l)%q) : k = l := by
  rw [add_mod_cases hh hk, add_mod_cases hh hl] at heq
  split at heq <;> split at heq <;> omega

/-- The segment is empty when its end meets its start. -/
theorem add_mod_eq_start_iff {q h n : ℕ} (hh : h < q) (hn : n < q) : (h+n)%q = h ↔ n = 0 := by
  rw [add_mod_cases hh hn]
  split <;> omega

/-- One more place than the end of the segment. -/
theorem add_mod_succ {q h n : ℕ} : ((h+n)%q+1)%q = (h+(n+1))%q := by
  rw [Nat.mod_add_mod, Nat.add_assoc]

/-- The segment is full when the place after its end meets its start. -/
theorem succ_add_mod_eq_start_iff {q h n : ℕ} (hh : h < q) (hn : n < q) :
    ((h+n)%q+1)%q = h ↔ n+1 = q := by
  rw [add_mod_succ]
  by_cases hfull : n+1 = q
  · rw [hfull, Nat.add_mod_right, Nat.mod_eq_of_lt hh]
    exact iff_of_true rfl rfl
  · rw [add_mod_eq_start_iff hh (by omega)]
    omega

theorem Segment.nil {a : List α} {q h : ℕ} (hblock : a.length = q) (hstart : h < q) :
    Segment a q h [] :=
  ⟨hblock, hstart, by rw [List.length_nil]; omega, fun _ hk => (Nat.not_lt_zero _ hk).elim⟩

theorem Segment.push {a : List α} {q h : ℕ} {xs : List α} (hseg : Segment a q h xs)
    (hroom : xs.length+1 < q) (x : α) :
    Segment (a.set ((h+xs.length)%q) x) q h (xs ++ [x]) := by
  have hend : (h+xs.length)%q < a.length := by
    rw [hseg.block]
    exact Nat.mod_lt _ (by omega)
  refine ⟨by rw [List.length_set, hseg.block], hseg.start, by rw [List.length_append]; exact hroom,
    fun k hk => ?_⟩
  rw [List.length_append, List.length_singleton] at hk
  by_cases hlast : k = xs.length
  · subst hlast
    rw [List.getElem?_set_self hend, List.getElem_concat_length rfl]
  -- the place written is not one in use
  · have hold : k < xs.length := by omega
    have hne : (h+xs.length)%q ≠ (h+k)%q := by
      intro heq
      exact hlast (add_mod_injective hseg.start (by omega) hseg.room heq.symm)
    rw [List.getElem?_set_ne hne, List.getElem_append_left hold]
    exact hseg.item k hold

theorem Segment.pop {a : List α} {q h : ℕ} {x : α} {xs : List α} (hseg : Segment a q h (x :: xs)) :
    a[h]? = some x ∧ Segment a q ((h+1)%q) xs := by
  have hlen := hseg.room
  rw [List.length_cons] at hlen
  constructor
  · have hfirst := hseg.item 0 (Nat.zero_lt_succ _)
    rwa [Nat.add_zero, Nat.mod_eq_of_lt hseg.start] at hfirst
  · refine ⟨hseg.block, Nat.mod_lt _ (by omega), by omega, fun k hk => ?_⟩
    have hnext := hseg.item (k+1) (Nat.succ_lt_succ hk)
    rwa [List.getElem_cons_succ, Nat.add_comm k 1, ← Nat.add_assoc, ← Nat.mod_add_mod] at hnext

/-! Rings: the same, but all places may be in use, so that the two ends do not tell how many. -/

/-- `xs` stands in the `q` places of `a` from place `h` on, cyclically. -/
structure Ring (a : List α) (q h : ℕ) (xs : List α) : Prop where
  block : a.length = q
  start : h < q
  fits : xs.length ≤ q
  item : ∀ k (hk : k < xs.length), a[(h+k)%q]? = some xs[k]

/-- An index that goes back to 0 at the end of the block. -/
theorem succ_wrap {q h : ℕ} (hh : h < q) : (if h+1 = q then 0 else h+1) = (h+1)%q := by
  split
  · next hlast => rw [hlast, Nat.mod_self]
  · next hlast => rw [Nat.mod_eq_of_lt (by omega)]

theorem Ring.nil {a : List α} {q h : ℕ} (hblock : a.length = q) (hstart : h < q) :
    Ring a q h [] :=
  ⟨hblock, hstart, Nat.zero_le _, fun _ hk => (Nat.not_lt_zero _ hk).elim⟩

theorem Ring.push {a : List α} {q h : ℕ} {xs : List α} (hring : Ring a q h xs)
    (hroom : xs.length < q) (x : α) :
    (h+xs.length)%q < a.length ∧ Ring (a.set ((h+xs.length)%q) x) q h (xs ++ [x]) := by
  have hend : (h+xs.length)%q < a.length := by
    rw [hring.block]
    exact Nat.mod_lt _ (by omega)
  refine ⟨hend, by rw [List.length_set, hring.block], hring.start, ?_, fun k hk => ?_⟩
  · rw [List.length_append, List.length_singleton]
    exact hroom
  rw [List.length_append, List.length_singleton] at hk
  by_cases hlast : k = xs.length
  · subst hlast
    rw [List.getElem?_set_self hend, List.getElem_concat_length rfl]
  · have hold : k < xs.length := by omega
    have hne : (h+xs.length)%q ≠ (h+k)%q := by
      intro heq
      exact hlast (add_mod_injective hring.start (by omega) hroom heq.symm)
    rw [List.getElem?_set_ne hne, List.getElem_append_left hold]
    exact hring.item k hold

theorem Ring.pop {a : List α} {q h : ℕ} {x : α} {xs : List α} (hring : Ring a q h (x :: xs)) :
    a[h]? = some x ∧ Ring a q ((h+1)%q) xs := by
  have hlen := hring.fits
  have hstart := hring.start
  rw [List.length_cons] at hlen
  constructor
  · have hfirst := hring.item 0 (Nat.zero_lt_succ _)
    rwa [Nat.add_zero, Nat.mod_eq_of_lt hring.start] at hfirst
  · refine ⟨hring.block, Nat.mod_lt _ (by omega), by omega, fun k hk => ?_⟩
    have hnext := hring.item (k+1) (Nat.succ_lt_succ hk)
    rwa [List.getElem_cons_succ, Nat.add_comm k 1, ← Nat.add_assoc, ← Nat.mod_add_mod] at hnext

end LinuxPrograms.Lib
