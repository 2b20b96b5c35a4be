import LinuxPrograms.C1000kClients

/-! The end of `process_event`: the loop that fires the timers that are due. Each callback arms its
timer again, ten seconds after the time the loop compares with, so the loop never fires a timer it
has armed. -/
namespace LinuxPrograms.C1000k
open Lib

section Order

variable {Ptr : Type*}

/-- The timers of `armed` that are due, by time, and those of one time in the order they were
armed. -/
structure FiredInOrder (timeStamp : TimeValue) (armed fired : List (TimeValue × Ptr)) : Prop where
  sorted : fired.Pairwise (fun a b => a.1 ≤ b.1)
  ofTime : ∀ t, fired.filter (fun e => decide (e.1 = t)) =
    if t ≤ timeStamp then armed.filter (fun e => decide (e.1 = t)) else []

def due (timeStamp : TimeValue) (armed : List (TimeValue × Ptr)) : List (TimeValue × Ptr) :=
  armed.filter (fun e => decide (e.1 ≤ timeStamp))

def notDue (timeStamp : TimeValue) (armed : List (TimeValue × Ptr)) : List (TimeValue × Ptr) :=
  armed.filter (fun e => decide (timeStamp < e.1))

theorem FiredInOrder.mem_armed {timeStamp : TimeValue} {armed fired : List (TimeValue × Ptr)}
    (h : FiredInOrder timeStamp armed fired) {e : TimeValue × Ptr} (he : e ∈ fired) :
    e ∈ armed ∧ e.1 ≤ timeStamp := by
  have hmem : e ∈ fired.filter (fun e' => decide (e'.1 = e.1)) := by simpa using he
  rw [h.ofTime] at hmem
  split at hmem
  · next hle => exact ⟨(List.mem_filter.mp hmem).1, hle⟩
  · cases hmem

theorem FiredInOrder.nil {timeStamp : TimeValue} {armed : List (TimeValue × Ptr)}
    (h : due timeStamp armed = []) : FiredInOrder timeStamp armed [] := by
  refine ⟨List.Pairwise.nil, fun t => ?_⟩
  split
  · next hle =>
    symm
    apply List.filter_eq_nil_iff.mpr
    intro e he heq
    have hdue := List.filter_eq_nil_iff.mp h e he
    rw [of_decide_eq_true heq] at hdue
    exact hdue (decide_eq_true hle)
  · rfl

variable [DecidableEq Ptr]

theorem filter_erase_of_false {q : TimeValue × Ptr → Bool} {l : List (TimeValue × Ptr)}
    {p : TimeValue × Ptr} (hp : q p = false) : (l.erase p).filter q = l.filter q := by
  rw [← List.erase_filter]
  apply List.erase_of_not_mem
  intro hmem
  have hq := (List.mem_filter.mp hmem).2
  rw [hp] at hq
  cases hq

/-- The earliest timer fires first, and the rest after it; a timer armed for later does not. -/
theorem FiredInOrder.cons {timeStamp later : TimeValue} {armed fired : List (TimeValue × Ptr)}
    {p : TimeValue × Ptr} (hp : TimerSet.earliest armed = some p) (hdue : p.1 ≤ timeStamp)
    (hlater : timeStamp < later) {x : Ptr}
    (h : FiredInOrder timeStamp (armed.erase p ++ [(later, x)]) fired) :
    FiredInOrder timeStamp armed (p :: fired) := by
  obtain ⟨-, hle⟩ := TimerSet.earliest_spec hp
  constructor
  · refine List.pairwise_cons.mpr ⟨fun e he => ?_, h.sorted⟩
    obtain ⟨hmem, hdue'⟩ := h.mem_armed he
    rcases List.mem_append.mp hmem with hmem | hmem
    · exact hle e (List.mem_of_mem_erase hmem)
    -- the timer armed again is not due
    · rw [List.mem_singleton.mp hmem] at hdue'
      exact absurd hdue' (not_le.mpr hlater)
  · intro t
    rw [List.filter_cons, h.ofTime]
    by_cases ht : t ≤ timeStamp
    · have hne : later ≠ t := (ht.trans_lt hlater).ne'
      rw [if_pos ht, if_pos ht, List.filter_append]
      by_cases hpt : p.1 = t
      -- the earliest timer is the first of its time
      · subst hpt
        rw [TimerSet.earliest_first hp]
        simp [hne]
      · rw [filter_erase_of_false (decide_eq_false hpt)]
        simp [hpt, hne]
    · have hpt : p.1 ≠ t := fun heq => ht (heq ▸ hdue)
      rw [if_neg ht, if_neg ht]
      simp [hpt]

/-- Each due timer fires once. -/
theorem FiredInOrder.perm {timeStamp : TimeValue} {armed fired : List (TimeValue × Ptr)}
    (h : FiredInOrder timeStamp armed fired) : fired.Perm (due timeStamp armed) := by
  refine List.perm_iff_count.mpr fun e => ?_
  have htime := congrArg (List.count e) (h.ofTime e.1)
  rw [List.count_filter (by simp)] at htime
  rw [htime]
  split
  · next hle =>
    rw [due, List.count_filter (by simp), List.count_filter (by simpa using hle)]
  · next hlate =>
    refine (List.count_eq_zero_of_not_mem fun hmem => ?_).symm
    exact hlate (of_decide_eq_true (List.mem_filter.mp hmem).2)

theorem due_rearmed {timeStamp later : TimeValue} {armed : List (TimeValue × Ptr)}
    {p : TimeValue × Ptr} (hp : p ∈ armed) (hdue : p.1 ≤ timeStamp) (hlater : timeStamp < later)
    (x : Ptr) :
    (due timeStamp armed).length = (due timeStamp (armed.erase p ++ [(later, x)])).length+1 := by
  have hmem : p ∈ due timeStamp armed := List.mem_filter.mpr ⟨hp, decide_eq_true hdue⟩
  have hrest : due timeStamp (armed.erase p ++ [(later, x)]) = (due timeStamp armed).erase p := by
    rw [due, List.filter_append, ← List.erase_filter]
    simp [due, hlater]
  have hpos := List.length_pos_of_mem hmem
  rw [hrest, List.length_erase_of_mem hmem]
  omega

theorem notDue_rearmed {timeStamp later : TimeValue} {armed : List (TimeValue × Ptr)}
    {p : TimeValue × Ptr} (hdue : p.1 ≤ timeStamp) (hlater : timeStamp < later) (x : Ptr) :
    notDue timeStamp (armed.erase p ++ [(later, x)]) = notDue timeStamp armed ++ [(later, x)] := by
  have hp : decide (timeStamp < p.1) = false := decide_eq_false (not_lt.mpr hdue)
  rw [notDue, List.filter_append, filter_erase_of_false hp]
  simp [notDue, hlater]

end Order

section Indexes

variable {Ptr : Type*} [LinearOrder Ptr]

/-- Where the two indexes agree they hold some set of timers, the time index's own pairs. -/
theorem TIMER.agree_iff_represents (T : TIMER Ptr) :
    (T.timerArgTime.entries.map Prod.swap).Perm T.timerTimeArg.entries ↔
      ∃ armed, T.Represents armed := by
  constructor
  · intro hagree
    exact ⟨T.timerTimeArg.entries, fun _ => rfl, hagree⟩
  · rintro ⟨armed, hT⟩
    exact hT.argTime.trans hT.timeArg.perm.symm

/-- `get_timer` finds nothing due, or takes the earliest timer out. -/
theorem TIMER.Represents.getTimer_cases {T : TIMER Ptr}
    {armed : List (TimeValue × Ptr)} (hT : T.Represents armed) (timeStamp : TimeValue) :
    (due timeStamp armed = [] ∧ ∃ T', T.getTimer timeStamp = some (none, T')) ∨
      ∃ p T', TimerSet.earliest armed = some p ∧ p.1 ≤ timeStamp ∧
        T.getTimer timeStamp = some (some p.2, T') ∧ T'.Represents (armed.erase p) := by
  obtain ⟨T', hget, hrep⟩ := hT.getTimer timeStamp
  unfold TimerSet.get at hget hrep
  cases hfront : TimerSet.earliest armed with
  | none =>
    rw [hfront] at hget
    rw [hT.earliest_eq, List.head?_eq_none_iff] at hfront
    have harmed : armed = [] := by simpa [hfront] using hT.timeArg.perm
    refine Or.inl ⟨?_, T', hget⟩
    rw [harmed]
    rfl
  | some p =>
    rw [hfront] at hget hrep
    dsimp only at hget hrep
    by_cases hdue : p.1 ≤ timeStamp
    · rw [if_pos hdue] at hget hrep
      exact Or.inr ⟨p, T', rfl, hdue, hget, hrep⟩
    · rw [if_neg hdue] at hget
      refine Or.inl ⟨?_, T', hget⟩
      apply List.filter_eq_nil_iff.mpr
      intro e he
      have hlate : timeStamp < e.1 :=
        (not_le.mp hdue).trans_le ((TimerSet.earliest_spec hfront).2 e he)
      simpa using hlate

end Indexes

section Phase

variable [LinearOrder VoidPtr]

/-- The loop for at most `fuel` rounds: the addresses `get_timer` has returned and the world when it
ends, `none` when it has not ended. -/
def timedPhase (w : ℕ) (timeStamp : TimeValue) :
    (ℕ → ℤ) → ℕ → World → Except Stop (Option (List VoidPtr × World))
  | _, 0, _ => .ok none
  | len, fuel+1, s =>
    match timedTask w timeStamp (len 0) s with
    | .error e => .error e
    | .ok none => .ok (some ([], s))
    | .ok (some s') =>
      let fditem := (((s.timer w).getTimer timeStamp).bind (·.1)).toList
      (timedPhase w timeStamp (fun k => len (k+1)) fuel s').map fun r =>
        r.map fun p => (fditem ++ p.1, p.2)

/-- The item of a timer, with `client_timeoutfun` as its callback and its own index as `fd`. -/
def TimesClient (s : World) (x : VoidPtr) : Prop :=
  ∃ i, x = .item i ∧ (s.gFDITEM i).mTimeoutfun = some .clientTimeoutfun ∧ (s.gFDITEM i).fd = i

/-- `write` changes neither timers nor callbacks. -/
theorem countSended_keeps (fd : ℕ) (len : ℤ) (s : World) :
    (countSended fd len s).timer = s.timer ∧
      ∀ i, ((countSended fd len s).gFDITEM i).funs = (s.gFDITEM i).funs := by
  have hset {p : FDITEM} (hp : p.funs = (s.gFDITEM fd).funs) (i : ℕ) :
      ((s.setItem fd p).gFDITEM i).funs = (s.gFDITEM i).funs := by
    by_cases hi : i = fd
    · subst hi
      simp only [World.setItem, Function.update_self, hp]
    · simp only [World.setItem, Function.update_of_ne hi]
  unfold countSended
  dsimp only
  split
  · exact ⟨rfl, hset rfl⟩
  · split
    · exact ⟨rfl, hset rfl⟩
    · exact ⟨rfl, fun _ => rfl⟩

theorem TimesClient.congr {s s' : World} {x : VoidPtr} (h : TimesClient s x)
    (hfuns : ∀ i, (s'.gFDITEM i).funs = (s.gFDITEM i).funs) : TimesClient s' x := by
  obtain ⟨i, hx, htimeout, hfd⟩ := h
  have hi := hfuns i
  simp only [FDITEM.funs, Prod.mk.injEq] at hi
  obtain ⟨-, -, -, ht, hf⟩ := hi
  exact ⟨i, hx, ht.trans htimeout, hf.trans hfd⟩

/-- A round ends the loop, or fires the earliest timer and arms it for ten seconds later. -/
theorem timedTask_round {w : ℕ} {timeStamp : TimeValue} {s : World}
    {armed : List (TimeValue × VoidPtr)} (hT : (s.timer w).Represents armed)
    (hitems : ∀ e ∈ armed, TimesClient s e.2) (len : ℤ) :
    (due timeStamp armed = [] ∧ timedTask w timeStamp len s = .ok none) ∨
      ∃ p s', TimerSet.earliest armed = some p ∧ p.1 ≤ timeStamp ∧
        ((s.timer w).getTimer timeStamp).bind (·.1) = some p.2 ∧
        timedTask w timeStamp len s = .ok (some s') ∧
        (s'.timer w).Represents (armed.erase p ++ [(timeStamp+10*1000, p.2)]) ∧
        ∀ e ∈ armed.erase p ++ [(timeStamp+10*1000, p.2)], TimesClient s' e.2 := by
  rcases hT.getTimer_cases timeStamp with
    ⟨hnone, T', hget⟩ | ⟨p, T', hp, hdue, hget, hrep⟩
  · refine Or.inl ⟨hnone, ?_⟩
    rw [timedTask, hget]
  · obtain ⟨hmem, _⟩ := TimerSet.earliest_spec hp
    obtain ⟨i, hx, htimeout, hfd⟩ := hitems p hmem
    obtain ⟨_, hfuns⟩ := countSended_keeps i len s
    refine Or.inr ⟨p, clientTimeoutfun w i timeStamp len (s.setTimer w T'), hp, hdue, ?_, ?_,
      ?_, ?_⟩
    · rw [hget]
      rfl
    · rw [timedTask, hget, hx]
      simp only [htimeout, hfd]
    · rw [WorldOk.clientTimeoutfun_setTimer, hx]
      simp only [World.setTimer, Function.update_self]
      exact hrep.addTimer _ _
    · rw [WorldOk.clientTimeoutfun_setTimer]
      intro e he
      refine TimesClient.congr ?_ hfuns
      rcases List.mem_append.mp he with he | he
      · exact hitems e (List.mem_of_mem_erase he)
      · rw [List.mem_singleton.mp he]
        exact hitems p hmem

/-- The loop ends, and has fired what was due; by induction on how many timers are due, as a fired
one is armed for a time that is not. -/
theorem timedPhase_spec {w : ℕ} (timeStamp : TimeValue) {s : World}
    {armed : List (TimeValue × VoidPtr)} (hT : (s.timer w).Represents armed)
    (hitems : ∀ e ∈ armed, TimesClient s e.2) (len : ℕ → ℤ) :
    ∃ fired s', (∀ fuel, fired.length < fuel →
        timedPhase w timeStamp len fuel s = .ok (some (fired.map Prod.snd, s'))) ∧
      FiredInOrder timeStamp armed fired ∧
      (s'.timer w).Represents
        (notDue timeStamp armed ++ fired.map fun e => (timeStamp+10*1000, e.2)) := by
  have hlater : timeStamp < timeStamp+10*1000 := Int.lt_add_of_pos_right _ (by decide)
  induction hn : (due timeStamp armed).length generalizing len s armed with
  | zero =>
    rcases timedTask_round hT hitems (len 0) with ⟨hnone, hend⟩ | ⟨p, _, hp, hdue, _⟩
    -- nothing is due: the loop ends in its first round
    · refine ⟨[], s, fun fuel hfuel => ?_, FiredInOrder.nil hnone, ?_⟩
      · obtain ⟨fuel, rfl⟩ := Nat.exists_eq_succ_of_ne_zero (Nat.ne_of_gt hfuel)
        simp only [timedPhase, hend, List.map_nil]
      · have hall : notDue timeStamp armed = armed := by
          refine List.filter_eq_self.mpr fun e he => ?_
          have hlate := List.filter_eq_nil_iff.mp hnone e he
          simpa using hlate
        rw [hall, List.map_nil, List.append_nil]
        exact hT
    · rw [due_rearmed (TimerSet.earliest_spec hp).1 hdue hlater p.2] at hn
      cases hn
  | succ n ih =>
    rcases timedTask_round hT hitems (len 0) with
      ⟨hnone, _⟩ | ⟨p, s₁, hp, hdue, hget, htask, hT₁, hitems₁⟩
    · rw [hnone] at hn
      cases hn
    -- the earliest timer fires, and one timer less is due
    · rw [due_rearmed (TimerSet.earliest_spec hp).1 hdue hlater p.2] at hn
      obtain ⟨fired, s', hrun, hfired, hleft⟩ :=
        ih hT₁ hitems₁ (fun k => len (k+1)) (Nat.succ.inj hn)
      refine ⟨p :: fired, s', fun fuel hfuel => ?_, hfired.cons hp hdue hlater, ?_⟩
      · obtain ⟨fuel, rfl⟩ := Nat.exists_eq_succ_of_ne_zero (Nat.ne_zero_of_lt hfuel)
        simp only [timedPhase, htask, hget, hrun fuel (Nat.lt_of_succ_lt_succ hfuel)]
        rfl
      · rw [notDue_rearmed hdue hlater, List.append_assoc] at hleft
        exact hleft

/-- The timed phase fires every due timer once: it ends after as many callbacks as there are timers
due, calls them by time and, at one time, in the order they were armed, and leaves armed those that
were not due and, ten seconds later, each it has fired. -/
theorem timed_phase_fires_due_once (w : ℕ) (timeStamp : TimeValue) (len : ℕ → ℤ) (s : World)
    (armed : List (TimeValue × VoidPtr)) (hT : (s.timer w).Represents armed)
    (hitems : ∀ e ∈ armed, TimesClient s e.2) :
    ∃ fired s', (∀ fuel, (due timeStamp armed).length < fuel →
        timedPhase w timeStamp len fuel s = .ok (some (fired.map Prod.snd, s'))) ∧
      fired.Perm (due timeStamp armed) ∧ FiredInOrder timeStamp armed fired ∧
      (s'.timer w).Represents
        (notDue timeStamp armed ++ fired.map fun e => (timeStamp+10*1000, e.2)) := by
  obtain ⟨fired, s', hrun, hfired, hleft⟩ := timedPhase_spec timeStamp hT hitems len
  have hlen := hfired.perm.length_eq
  exact ⟨fired, s', fun fuel hfuel => hrun fuel (hlen ▸ hfuel), hfired.perm, hfired, hleft⟩

end Phase

section ThreeClients

attribute [local instance] VoidPtr.order

/-- Clients 7 and 6, armed in this order for the same time, and client 8 for later. -/
def threeArmed : World where
  gFDITEM := fun i => (FDITEM.new i).client
  opened := fun _ => true
  interest := fun _ => []
  timer := fun _ => ((TIMER.empty.addTimer (.item 7) 5).addTimer (.item 6) 5).addTimer (.item 8) 90

theorem timed_phase_fires_due_once_three :
    ∃ fired s', (∀ fuel, 2 < fuel → timedPhase 1 10 (fun _ => 4) fuel threeArmed =
        .ok (some (fired.map Prod.snd, s'))) ∧
      fired.Perm [(5, .item 7), (5, .item 6)] ∧
      FiredInOrder 10 [(5, .item 7), (5, .item 6), (90, .item 8)] fired ∧
      (s'.timer 1).Represents
        ([(90, .item 8)] ++ fired.map fun e => (10+10*1000, e.2)) :=
  timed_phase_fires_due_once 1 10 (fun _ => 4) threeArmed
    [(5, .item 7), (5, .item 6), (90, .item 8)]
    (((TIMER.Represents.empty.addTimer _ _).addTimer _ _).addTimer _ _)
    (fun e he => by
      simp only [List.mem_cons, List.not_mem_nil, or_false] at he
      rcases he with rfl | rfl | rfl <;> exact ⟨_, rfl, rfl, rfl⟩)

end ThreeClients

end LinuxPrograms.C1000k
