import Mathlib.Algebra.Ring.Nat
import Mathlib.Logic.Relation
import Mathlib.Order.Basic
import Mathlib.Tactic.Common

/-! Finite runs of a partial, labelled step function, the invariant rule, and the rules that
turn a per-step equivalence into an equivalence over whole runs.
`none` is a step that is not enabled, ends the program, or has no defined result. -/
namespace LinuxPrograms.Lib

variable {σ α : Type*} {next : σ → α → Option σ}

/-- `Run next s tr s'` leads from `s` to `s'`; `tr` lists each step's source state and label. -/
inductive Run (next : σ → α → Option σ) : σ → List (σ × α) → σ → Prop
  | nil (s : σ) : Run next s [] s
  | cons {s s' s'' : σ} {a : α} {tr : List (σ × α)} :
      next s a = some s' → Run next s' tr s'' → Run next s ((s, a) :: tr) s''

/-- The states some run from `s₀` ends in. -/
def Reachable (next : σ → α → Option σ) (s₀ s : σ) : Prop := ∃ tr, Run next s₀ tr s

/-- `P` in every state a run visits, the last one included. -/
def Throughout (P : σ → Prop) (tr : List (σ × α)) (last : σ) : Prop :=
  (∀ p ∈ tr, P p.1) ∧ P last

theorem Run.append {s t u : σ} {tr tr' : List (σ × α)} (h : Run next s tr t)
    (h' : Run next t tr' u) : Run next s (tr ++ tr') u := by
  induction h with
  | nil => exact h'
  | cons hs _ ih => exact .cons hs (ih h')

theorem Run.single {s s' : σ} {a : α} (h : next s a = some s') : Run next s [(s, a)] s' :=
  .cons h (.nil s')

theorem Reachable.refl (s : σ) : Reachable next s s := ⟨[], .nil s⟩

theorem Reachable.trans {s t u : σ} (h : Reachable next s t) (h' : Reachable next t u) :
    Reachable next s u := by
  obtain ⟨tr, ht⟩ := h
  obtain ⟨tr', ht'⟩ := h'
  exact ⟨tr ++ tr', ht.append ht'⟩

theorem Reachable.tail {s t u : σ} {a : α} (h : Reachable next s t) (hs : next t a = some u) :
    Reachable next s u :=
  h.trans ⟨_, Run.single hs⟩

/-- The invariant rule, with every step of the run constrained to `C`. -/
theorem Run.invariant_of_steps (I : σ → Prop) (C : σ → α → Prop)
    (hstep : ∀ s a s', I s → C s a → next s a = some s' → I s')
    {s s' : σ} {tr : List (σ × α)} (h : Run next s tr s') (hC : ∀ p ∈ tr, C p.1 p.2) (hI : I s) :
    I s' := by
  induction h with
  | nil => exact hI
  | cons hs _ ih =>
    -- the induction is on the rest of the run, from the state after the first step
    exact ih (fun p hp => hC p (List.mem_cons_of_mem _ hp))
      (hstep _ _ _ hI (hC _ List.mem_cons_self) hs)

/-- The invariant rule, with the labels of the run constrained to `L`. -/
theorem Run.invariant_of_labels (I : σ → Prop) (L : α → Prop)
    (hstep : ∀ s a s', I s → L a → next s a = some s' → I s')
    {s s' : σ} {tr : List (σ × α)} (h : Run next s tr s') (hL : ∀ p ∈ tr, L p.2) (hI : I s) :
    I s' :=
  h.invariant_of_steps I (fun _ a => L a) hstep hL hI

theorem Reachable.invariant {I : σ → Prop}
    (hstep : ∀ s a s', I s → next s a = some s' → I s')
    {s s' : σ} (h : Reachable next s s') (hI : I s) : I s' := by
  obtain ⟨tr, hr⟩ := h
  exact hr.invariant_of_labels I (fun _ => True) (fun s a s' hs _ => hstep s a s' hs)
    (fun _ _ => trivial) hI

/-- A quantity no step lowers. -/
theorem Run.monotone {β : Type*} [Preorder β] {I : σ → Prop} (m : σ → β)
    (hI : ∀ s a s', I s → next s a = some s' → I s')
    (hm : ∀ s a s', I s → next s a = some s' → m s ≤ m s')
    {s s' : σ} {tr : List (σ × α)} (h : Run next s tr s') (hs : I s) : m s ≤ m s' := by
  induction h with
  | nil => exact le_refl _
  | cons hst _ ih => exact (hm _ _ _ hs hst).trans (ih (hI _ _ _ hs hst))

/-- When no step lowers the quantity, and a step keeps it exactly when it meets `C`, a run keeps it
exactly when each of its steps meets `C`. -/
theorem Run.kept_iff {β : Type*} [PartialOrder β] {I : σ → Prop} (m : σ → β) (C : σ → α → Prop)
    (hI : ∀ s a s', I s → next s a = some s' → I s')
    (hm : ∀ s a s', I s → next s a = some s' → m s ≤ m s')
    (hC : ∀ s a s', I s → next s a = some s' → (m s' = m s ↔ C s a))
    {s s' : σ} {tr : List (σ × α)} (h : Run next s tr s') (hs : I s) :
    m s' = m s ↔ ∀ p ∈ tr, C p.1 p.2 := by
  induction h with
  | nil => simp
  | @cons s t u a tr hst hr ih =>
    have hIt := hI _ _ _ hs hst
    have hle := hm _ _ _ hs hst
    have hle' := hr.monotone m hI hm hIt
    rw [List.forall_mem_cons, ← ih hIt, ← hC _ _ _ hs hst]
    constructor
    · intro heq
      have hfirst : m t = m s := le_antisymm (heq ▸ hle') hle
      exact ⟨hfirst, heq.trans hfirst.symm⟩
    · rintro ⟨hfirst, hrest⟩
      exact hrest.trans hfirst

/-- The state after a list of labels, when each step is enabled. -/
def exec (next : σ → α → Option σ) (s : σ) : List α → Option σ
  | [] => some s
  | a :: as => (next s a).bind (fun s' => exec next s' as)

/-- The steps taken on the way. -/
def trace (next : σ → α → Option σ) (s : σ) : List α → List (σ × α)
  | [] => []
  | a :: as => (s, a) :: (next s a).elim [] (fun s' => trace next s' as)

theorem Run.of_exec {s s' : σ} {as : List α} (h : exec next s as = some s') :
    Run next s (trace next s as) s' := by
  induction as generalizing s with
  | nil =>
    cases h
    exact .nil _
  | cons a as ih =>
    obtain ⟨t, ht, h⟩ := Option.bind_eq_some_iff.mp h
    rw [trace, ht]
    exact .cons ht (ih h)

theorem Reachable.of_exec {s s' : σ} {as : List α} (h : exec next s as = some s') :
    Reachable next s s' :=
  ⟨_, Run.of_exec h⟩

/-- The states a run visits are reachable. -/
theorem Run.reachable_of_mem {s s' : σ} {tr : List (σ × α)} (h : Run next s tr s') :
    ∀ p ∈ tr, Reachable next s p.1 := by
  induction h with
  | nil => intro p hp; cases hp
  | cons hs _ ih =>
    intro p hp
    rcases List.mem_cons.mp hp with rfl | hp
    · exact .refl _
    · exact (Reachable.refl _).tail hs |>.trans (ih p hp)

/-- The first state of a run is among those it visits. -/
theorem Run.throughout_first {P : σ → Prop} {s s' : σ} {tr : List (σ × α)} (h : Run next s tr s')
    (hP : Throughout P tr s') : P s := by
  cases h with
  | nil => exact hP.2
  | cons => exact hP.1 _ List.mem_cons_self

theorem throughout_cons {P : σ → Prop} {s s' : σ} {a : α} {tr : List (σ × α)} :
    Throughout P ((s, a) :: tr) s' ↔ P s ∧ Throughout P tr s' := by
  rw [Throughout, List.forall_mem_cons, and_assoc]
  rfl

/-- What every step that meets `C` keeps holds throughout a run of such steps. -/
theorem Run.throughout_of_steps {I : σ → Prop} {C : σ → α → Prop}
    (hstep : ∀ s a s', I s → C s a → next s a = some s' → I s')
    {s s' : σ} {tr : List (σ × α)} (h : Run next s tr s') (hC : ∀ p ∈ tr, C p.1 p.2) (hI : I s) :
    Throughout I tr s' := by
  induction h with
  | nil => exact ⟨fun _ hp => (List.not_mem_nil hp).elim, hI⟩
  | cons hs _ ih =>
    exact throughout_cons.mpr ⟨hI, ih (fun p hp => hC p (List.mem_cons_of_mem _ hp))
      (hstep _ _ _ hI (hC _ List.mem_cons_self) hs)⟩

theorem Throughout.mono {P Q : σ → Prop} (hPQ : ∀ s, P s → Q s) {tr : List (σ × α)} {s : σ}
    (h : Throughout P tr s) : Throughout Q tr s :=
  ⟨fun p hp => hPQ _ (h.1 p hp), hPQ _ h.2⟩

/-- `Q` is stronger than `P`. While `Q` holds, a step to `P` meets `C`, and a step that meets `C`
keeps `Q`: then `P` holds throughout a run from `Q` exactly when every step of it meets `C`. -/
theorem Run.throughout_iff_of_stronger {P Q : σ → Prop} {D : σ → α → Prop} (C : σ → α → Prop)
    (hQP : ∀ s, Q s → P s)
    (hP : ∀ s a s', Q s → D s a → next s a = some s' → P s' → C s a)
    (hQ : ∀ s a s', Q s → D s a → next s a = some s' → C s a → Q s')
    {s s' : σ} {tr : List (σ × α)} (h : Run next s tr s') (hD : ∀ p ∈ tr, D p.1 p.2) (hs : Q s) :
    Throughout P tr s' ↔ ∀ p ∈ tr, C p.1 p.2 := by
  induction h with
  | nil s => simp [Throughout, hQP s hs]
  | @cons s t u a tr hst hr ih =>
    obtain ⟨hfirstD, hrestD⟩ := List.forall_mem_cons.mp hD
    rw [throughout_cons, List.forall_mem_cons]
    constructor
    · rintro ⟨_, htail⟩
      have hfirst := hP _ _ _ hs hfirstD hst (hr.throughout_first htail)
      exact ⟨hfirst, (ih hrestD (hQ _ _ _ hs hfirstD hst hfirst)).mp htail⟩
    · rintro ⟨hfirst, hrest⟩
      exact ⟨hQP s hs, (ih hrestD (hQ _ _ _ hs hfirstD hst hfirst)).mpr hrest⟩

/-- While `I` holds along the run and each step keeps `P` exactly when it meets `C`, `P`
holds throughout the run exactly when every step of it meets `C`. -/
theorem Run.throughout_iff {I P : σ → Prop} (C : σ → α → Prop)
    (hI : ∀ s a s', I s → next s a = some s' → I s')
    (hC : ∀ s a s', I s → P s → next s a = some s' → (P s' ↔ C s a))
    {s s' : σ} {tr : List (σ × α)} (h : Run next s tr s') (hs : I s) (hP : P s) :
    Throughout P tr s' ↔ ∀ p ∈ tr, C p.1 p.2 := by
  refine h.throughout_iff_of_stronger (Q := fun s => I s ∧ P s) (D := fun _ _ => True) C
    (fun s hs => hs.2) ?_ ?_ (fun _ _ => trivial) ⟨hs, hP⟩
  · intro s a s' hs _ hst hP'
    exact (hC s a s' hs.1 hs.2 hst).mp hP'
  · intro s a s' hs _ hst hmeets
    exact ⟨hI s a s' hs.1 hst, (hC s a s' hs.1 hs.2 hst).mpr hmeets⟩

/-- A step that meets `C` leads to `P`, and `P` stays: once such a step is taken, `P` holds at the
end. -/
theorem Run.after_step {I P : σ → Prop} {C : σ → α → Prop}
    (hI : ∀ s a s', I s → next s a = some s' → I s')
    (hC : ∀ s a s', I s → C s a → next s a = some s' → P s')
    (hP : ∀ s a s', I s → P s → next s a = some s' → P s')
    {s s' : σ} {tr : List (σ × α)} (h : Run next s tr s') (hs : I s)
    (hex : ∃ p ∈ tr, C p.1 p.2) : P s' := by
  induction h with
  | nil =>
    obtain ⟨p, hp, -⟩ := hex
    cases hp
  | @cons s t u a tr hst hr ih =>
    obtain ⟨p, hp, hmeets⟩ := hex
    rcases List.mem_cons.mp hp with rfl | hp
    · have hkept : I u ∧ P u :=
        hr.invariant_of_labels (fun s => I s ∧ P s) (fun _ => True)
          (fun s a s' hs _ hst => ⟨hI s a s' hs.1 hst, hP s a s' hs.1 hs.2 hst⟩)
          (fun _ _ => trivial) ⟨hI _ _ _ hs hst, hC _ _ _ hs hmeets hst⟩
      exact hkept.2
    · exact ih (hI _ _ _ hs hst) ⟨p, hp, hmeets⟩

/-- A quantity that every step lowers, by at least one more than its label is worth, bounds the
length of a run. -/
theorem Run.length_le_of_cost {I : σ → Prop} (m : σ → ℕ) (cost : α → ℕ)
    (hI : ∀ s a s', I s → next s a = some s' → I s')
    (hm : ∀ s a s', I s → next s a = some s' → m s'+1 ≤ m s+cost a)
    {s s' : σ} {tr : List (σ × α)} (h : Run next s tr s') (hs : I s) :
    tr.length+m s' ≤ m s+(tr.map fun p => cost p.2).sum := by
  induction h with
  | nil => exact Nat.le_of_eq (Nat.add_comm _ _)
  | cons hst _ ih =>
    have hfirst := hm _ _ _ hs hst
    have hrest := ih (hI _ _ _ hs hst)
    rw [List.length_cons, List.map_cons, List.sum_cons]
    dsimp only
    omega

/-- The case without costs: every step lowers the quantity. -/
theorem Run.length_le_of_measure {I : σ → Prop} (m : σ → ℕ)
    (hI : ∀ s a s', I s → next s a = some s' → I s')
    (hm : ∀ s a s', I s → next s a = some s' → m s' < m s)
    {s s' : σ} {tr : List (σ × α)} (h : Run next s tr s') (hs : I s) :
    tr.length+m s' ≤ m s := by
  have hcost := h.length_le_of_cost m (fun _ => 0) hI hm hs
  rwa [List.map_const', List.sum_replicate_nat, Nat.mul_zero, Nat.add_zero] at hcost

/-- Some run from `s` to `s'` shows `l`, where a step shows what `seen` says of it. -/
def Shows {ω : Type*} (next : σ → α → Option σ) (seen : σ → α → Option ω) (s : σ) (l : List ω)
    (s' : σ) : Prop :=
  ∃ tr, Run next s tr s' ∧ (tr.flatMap fun p => (seen p.1 p.2).toList) = l

section Shows
variable {τ β ω : Type*} {next' : τ → β → Option τ} {seen : σ → α → Option ω}
variable {seen' : τ → β → Option ω} {s s' s'' : σ} {a : α} {l l' : List ω}

theorem Shows.refl (s : σ) : Shows next seen s [] s := ⟨[], .nil s, rfl⟩

theorem Shows.trans (h : Shows next seen s l s') (h' : Shows next seen s' l' s'') :
    Shows next seen s (l ++ l') s'' := by
  obtain ⟨tr, hr, rfl⟩ := h
  obtain ⟨tr', hr', rfl⟩ := h'
  exact ⟨tr ++ tr', hr.append hr', List.flatMap_append⟩

theorem Shows.single (h : next s a = some s') : Shows next seen s (seen s a).toList s' :=
  ⟨[(s, a)], .single h, List.flatMap_singleton _ _⟩

/-- A step that shows nothing. -/
theorem Shows.silent (h : next s a = some s') (hseen : seen s a = none) :
    Shows next seen s [] s' := by
  have hsingle : Shows next seen s (seen s a).toList s' := .single h
  rwa [hseen] at hsingle

/-- The simulation rule: when each step of one machine is matched by a run of the other that shows
the same, so is each run. -/
theorem Shows.simulated {R : σ → τ → Prop}
    (hstep : ∀ s a s' t, R s t → next s a = some s' →
      ∃ t', Shows next' seen' t (seen s a).toList t' ∧ R s' t')
    (h : Shows next seen s l s') {t : τ} (hst : R s t) :
    ∃ t', Shows next' seen' t l t' ∧ R s' t' := by
  obtain ⟨tr, hr, rfl⟩ := h
  induction hr generalizing t with
  | nil => exact ⟨t, .refl t, hst⟩
  | @cons s u u' a tr hs _ ih =>
    obtain ⟨v, hfirst, huv⟩ := hstep s a u t hst hs
    obtain ⟨t', hrest, hend⟩ := ih huv
    refine ⟨t', ?_, hend⟩
    rw [List.flatMap_cons]
    exact hfirst.trans hrest

end Shows

/-- What every round of a loop over a list keeps, the loop keeps. -/
theorem foldlM_invariant {β : Type*} {f : σ → β → Option σ} {l : List β} {I : σ → Prop}
    (hstep : ∀ s b s', b ∈ l → I s → f s b = some s' → I s') {s s' : σ}
    (h : l.foldlM f s = some s') (hI : I s) : I s' := by
  induction l generalizing s with
  | nil =>
    cases h
    exact hI
  | cons b l ih =>
    rw [List.foldlM_cons] at h
    obtain ⟨t, ht, h⟩ := Option.bind_eq_some_iff.mp h
    exact ih (fun s b s' hb => hstep s b s' (List.mem_cons_of_mem _ hb)) h
      (hstep s b t List.mem_cons_self hI ht)

end LinuxPrograms.Lib
