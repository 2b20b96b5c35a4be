import LinuxPrograms.C1000kOuttime
import Mathlib.Tactic.Linarith

/-! The workers of the c1000k server with a clock. A worker reads it when it works out how long to
wait, when it registers a descriptor and when it is about to fire its timers. -/
namespace LinuxPrograms.C1000k
open Lib

/-- The time a worker last read in its loop: it has started to wait for events, which it then
handles, or to fire timers. The timeout is what `epoll_wait` takes, an `int`. -/
inductive Leg
  | waiting (start : TimeValue) (timeout : ℤ)
  | firing (start : TimeValue)

def Leg.start : Leg → TimeValue
  | .waiting start _ => start
  | .firing start => start

/-- At the time `clock`: a worker fires its timers, and works out its next wait, within `work`; and
`epoll_wait` and the events take at most `latency` more than the timeout. A negative timeout is
none. -/
def Leg.OnTime (work latency : ℕ) (clock : TimeValue) : Leg → Prop
  | .waiting start timeout => 0 ≤ timeout → clock ≤ start+timeout+latency
  | .firing start => clock ≤ start+work

instance (work latency : ℕ) (clock : TimeValue) : (leg : Leg) →
    Decidable (leg.OnTime work latency clock)
  | .waiting start timeout =>
    inferInstanceAs (Decidable (0 ≤ timeout → clock ≤ start+timeout+latency))
  | .firing start => inferInstanceAs (Decidable (clock ≤ start+work))

section Clock

variable [LinearOrder VoidPtr]

structure Clocked [LinearOrder VoidPtr] extends Workers where
  clock : TimeValue  -- what `getNowTimeStamp` returns
  leg : ℕ → Leg

/-- Time passes, a step of the workers takes its time, or a worker works out how long to wait. -/
inductive ClockAct
  | pass (ms : ℕ)
  | work (a : WorkerAct) (ms : ℕ)
  | mintimer (w : ℕ)

/-- Every worker calls `process_event` for the first time. -/
def setupClocked (cfg : WorkerConfig) (others : ℕ → Bool) (clock : TimeValue) : Clocked :=
  { setupWorkers cfg others with clock, leg := fun _ => .waiting clock 1000 }

/-- `epoll_wait` is called with the timeout worked out. -/
def Clocked.mayWork (s : Clocked) : WorkerAct → Bool
  | .epollWait w _ =>
    match s.leg w with
    | .waiting _ _ => true
    | .firing _ => false
  | _ => true

def nextLeg (leg : ℕ → Leg) : WorkerAct → ℕ → Leg
  | .time w timeStamp => Function.update leg w (.firing timeStamp)
  | _ => leg

def nextClocked (s : Clocked) : ClockAct → Option Clocked
  | .pass ms => some { s with clock := s.clock+ms }
  | .work a ms =>
    if s.mayWork a then
      (nextWorkers s.toWorkers a).map fun t =>
        { t with clock := s.clock+ms, leg := nextLeg s.leg a }
    else none
  | .mintimer w =>
    match s.pc w, s.leg w with
    | .idle, .firing _ => some { s with
        leg := Function.update s.leg w (.waiting s.clock (toInt (outtime (s.timer w) s.clock))) }
    | _, _ => none

/-- The times read in a step that takes from `lo` to `hi`. -/
def WorkerAct.ReadsBetween (lo hi : TimeValue) : WorkerAct → Prop
  | .event _ io => io.ReadsBetween lo hi
  | .time _ timeStamp => timeStamp = lo
  | _ => True

/-- The times read are the clock's. -/
def Clocked.Reads (s : Clocked) : ClockAct → Prop
  | .work a ms => a.ReadsBetween s.clock (s.clock+ms)
  | _ => True

def Clocked.HandsOver (s : Clocked) : ClockAct → Prop
  | .work a _ => HandedOver s.toWorkers a
  | _ => True

/-! What a step does to one worker. -/

/-- What a step can change of a worker. -/
structure WorkerView [LinearOrder VoidPtr] where
  timer : TIMER VoidPtr
  pc : WorkerPc
  leg : Leg
  clock : TimeValue

def Clocked.view (s : Clocked) (w : ℕ) : WorkerView := ⟨s.timer w, s.pc w, s.leg w, s.clock⟩

/-- One worker before and after a step, its own or another's. -/
inductive WorkerMove (u : WorkerView) : WorkerView → Prop
  | later {ms : ℕ} : WorkerMove u { u with clock := u.clock+ms }
  | epollWait {start : TimeValue} {timeout : ℤ} {evs : List Event} {ms : ℕ} : u.pc = .idle →
      u.leg = .waiting start timeout → WorkerMove u { u with pc := .batch evs, clock := u.clock+ms }
  | event {ev : Event} {evs : List Event} {T : TIMER VoidPtr} {ms : ℕ} :
      u.pc = .batch (ev :: evs) → TIMER.Arming u.clock (u.clock+ms) u.timer T →
      WorkerMove u { u with timer := T, pc := .batch evs, clock := u.clock+ms }
  | time {ms : ℕ} : u.pc = .batch [] →
      WorkerMove u { u with pc := .timed u.clock, leg := .firing u.clock, clock := u.clock+ms }
  | fire {timeStamp : TimeValue} {T : TIMER VoidPtr} {ms : ℕ} : u.pc = .timed timeStamp →
      TIMER.Arming timeStamp timeStamp u.timer T →
      WorkerMove u { u with timer := T, clock := u.clock+ms }
  | rest {timeStamp : TimeValue} {ms : ℕ} : u.pc = .timed timeStamp →
      (u.timer.Sound → ∀ e ∈ u.timer.timerTimeArg.entries, timeStamp < e.1) →
      WorkerMove u { u with pc := .idle, clock := u.clock+ms }
  | mintimer {start : TimeValue} : u.pc = .idle → u.leg = .firing start →
      WorkerMove u { u with leg := .waiting u.clock (toInt (outtime u.timer u.clock)) }

theorem workerMove_of_work {s : Clocked} {t : Workers} {a : WorkerAct} {ms : ℕ}
    (hreads : a.ReadsBetween s.clock (s.clock+ms)) (hmay : s.mayWork a = true)
    (h : nextWorkers s.toWorkers a = some t) (w : ℕ) :
    WorkerMove (s.view w) ⟨t.timer w, t.pc w, nextLeg s.leg a w, s.clock+ms⟩ := by
  rw [nextWorkers_eq_some] at h
  -- a worker's step leaves the others where they are
  have hother {v : ℕ} {pc : WorkerPc} {T : TIMER VoidPtr} (hne : w ≠ v) (hT : T = s.timer w) :
      WorkerMove (s.view w) ⟨T, Function.update s.pc v pc w, s.leg w, s.clock+ms⟩ := by
    rw [hT, Function.update_of_ne hne]
    exact .later
  cases a with
  | epollWait v evs =>
    simp only [stepWorkers] at h
    split at h
    · next hpc =>
      split at h
      · cases h
        by_cases hw : w = v
        · subst hw
          rw [Clocked.mayWork] at hmay
          split at hmay
          · next hleg =>
            simp only [Workers.goto, Function.update_self]
            exact .epollWait hpc hleg
          · cases hmay
        · exact hother hw rfl
      · cases h
    · cases h
  | event v io =>
    simp only [stepWorkers] at h
    split at h
    · next ev evs hpc =>
      split at h
      · next world hev =>
        cases h
        have harms := ArmsWithin.processOneEvent hreads hev
        by_cases hw : w = v
        · subst hw
          simp only [Workers.goto, Function.update_self]
          exact .event hpc harms.own
        · exact hother hw (harms.others w hw)
      · cases h
    · cases h
  | time v timeStamp =>
    simp only [stepWorkers] at h
    split at h
    · next hpc =>
      cases h
      cases hreads
      by_cases hw : w = v
      · subst hw
        simp only [Workers.goto, nextLeg, Function.update_self]
        exact .time hpc
      · simp only [nextLeg, Function.update_of_ne hw]
        exact hother hw rfl
    · cases h
  | timer v len =>
    simp only [stepWorkers] at h
    split at h
    · next timeStamp hpc =>
      split at h
      · next world htask =>
        cases h
        have harms := ArmsWithin.timedTask htask
        by_cases hw : w = v
        · subst hw
          exact .fire hpc harms.own
        · dsimp only
          rw [harms.others w hw]
          exact .later
      · next hnone =>
        cases h
        by_cases hw : w = v
        · subst hw
          simp only [Workers.goto, Function.update_self]
          exact .rest hpc fun hT => timedTask_none hT hnone
        · exact hother hw rfl
      · cases h
    · cases h
  | openFd fd =>
    simp only [stepWorkers] at h
    split at h
    · cases h
      exact .later
    · cases h

theorem workerMove_of_step {s s' : Clocked} {a : ClockAct} (hreads : s.Reads a)
    (h : nextClocked s a = some s') (w : ℕ) : WorkerMove (s.view w) (s'.view w) := by
  cases a with
  | pass ms =>
    cases h
    exact .later
  | work a ms =>
    simp only [nextClocked] at h
    split at h
    · next hmay =>
      obtain ⟨t, hnext, rfl⟩ := Option.map_eq_some_iff.mp h
      exact workerMove_of_work hreads hmay hnext w
    · cases h
  | mintimer v =>
    simp only [nextClocked] at h
    split at h
    · next hpc hleg =>
      cases h
      by_cases hw : w = v
      · subst hw
        simp only [Clocked.view, Function.update_self]
        exact .mintimer hpc hleg
      · simp only [Clocked.view, Function.update_of_ne hw]
        have hsame := @WorkerMove.later _ (s.view w) 0
        rwa [Nat.cast_zero, Int.add_zero] at hsame
    · cases h

/-! How long a worker waits. -/

/-- Where a worker is, and its timers against the time it last read. -/
structure Scheduled (u : WorkerView) : Prop where
  sound : u.timer.Sound
  start_le : u.leg.start ≤ u.clock
  due_le : ∀ e ∈ u.timer.timerTimeArg.entries, e.1 ≤ u.clock+10*1000
  batch : ∀ evs, u.pc = .batch evs → ∃ start timeout, u.leg = .waiting start timeout
  timed : ∀ timeStamp, u.pc = .timed timeStamp → u.leg = .firing timeStamp
  timeout : ∀ start timeout, u.leg = .waiting start timeout → 0 ≤ timeout ∧ timeout ≤ 10*1000
  -- kept by what is armed in the meantime, as that is due ten seconds later
  waiting : ∀ start timeout, u.leg = .waiting start timeout →
    ∀ e ∈ u.timer.timerTimeArg.entries, timeout = 0 ∨ start+timeout ≤ e.1
  -- the loop over the timers has ended
  rested : ∀ start, u.leg = .firing start → u.pc = .idle →
    ∀ e ∈ u.timer.timerTimeArg.entries, start < e.1

theorem setup_scheduled (cfg : WorkerConfig) (others : ℕ → Bool) (clock : TimeValue) (w : ℕ) :
    Scheduled ((setupClocked cfg others clock).view w) where
  sound := TIMER.Represents.empty
  start_le := Int.le_refl _
  due_le := fun _ he => (List.not_mem_nil he).elim
  batch := fun _ h => by cases h
  timed := fun _ h => by cases h
  timeout := fun _ _ h => by
    cases h
    decide
  waiting := fun _ _ _ _ he => (List.not_mem_nil he).elim
  rested := fun _ h => by cases h

theorem outtime_range {T : TIMER VoidPtr} {clock : TimeValue} (hT : T.Sound)
    (hdue : ∀ e ∈ T.timerTimeArg.entries, e.1 ≤ clock+10*1000) :
    0 ≤ outtime T clock ∧ outtime T clock ≤ 10*1000 := by
  rcases outtime_cases hT clock with ⟨-, heq⟩ | ⟨p, hp, -, heq⟩
  · rw [heq]
    decide
  · rw [heq]
    have hle := hdue p hp
    exact ⟨le_max_left _ _, max_le (by decide) (by linarith)⟩

/-- The conversion to an `int` changes nothing. -/
theorem toInt_outtime {T : TIMER VoidPtr} {clock : TimeValue} (hT : T.Sound)
    (hdue : ∀ e ∈ T.timerTimeArg.entries, e.1 ≤ clock+10*1000) :
    toInt (outtime T clock) = outtime T clock := by
  obtain ⟨h0, hle⟩ := outtime_range hT hdue
  exact toInt_of_lt h0 (lt_of_le_of_lt hle (by decide))

theorem outtime_waits {T : TIMER VoidPtr} {clock : TimeValue} (hT : T.Sound) :
    ∀ e ∈ T.timerTimeArg.entries, outtime T clock = 0 ∨ clock+outtime T clock ≤ e.1 := by
  intro e he
  rcases outtime_cases hT clock with ⟨hnil, -⟩ | ⟨p, -, hmin, heq⟩
  · rw [hnil] at he
    cases he
  · have hle := hmin e he
    rw [heq]
    rcases le_total (p.1-clock) 0 with hdue | hlate
    · exact .inl (max_eq_left hdue)
    · rw [max_eq_right hlate]
      right
      linarith

section Steps

variable {u v : WorkerView}

theorem Scheduled.later (hu : Scheduled u) (ms : ℕ) :
    Scheduled { u with clock := u.clock+ms } := by
  refine { hu with start_le := ?_, due_le := fun e he => ?_ }
  · exact hu.start_le.trans (Int.le_add_of_nonneg_right (Int.natCast_nonneg ms))
  · have hdue := hu.due_le e he
    have hms : (0:ℤ) ≤ ms := Int.natCast_nonneg ms
    dsimp only
    linarith

theorem Scheduled.event (hu : Scheduled u) {ev : Event} {evs : List Event} {T : TIMER VoidPtr}
    {ms : ℕ} (hpc : u.pc = .batch (ev :: evs))
    (harm : TIMER.Arming u.clock (u.clock+ms) u.timer T) :
    Scheduled { u with timer := T, pc := .batch evs, clock := u.clock+ms } := by
  obtain ⟨hT, hmem⟩ := harm hu.sound
  have hlater := hu.later ms
  refine { hlater with
    sound := hT
    due_le := fun e he => ?_
    batch := fun _ _ => hu.batch _ hpc
    timed := fun _ h => by cases h
    waiting := fun start timeout hleg e he => ?_
    rested := fun _ _ h => by cases h }
  · rcases hmem e he with he | ⟨-, hle⟩
    · exact hlater.due_le e he
    · exact hle
  · rcases hmem e he with he | ⟨hle, -⟩
    · exact hu.waiting start timeout hleg e he
    -- a new timer is due ten seconds from now, and the worker waits no longer than that
    · have hstart := hu.start_le
      dsimp only at hleg
      rw [hleg] at hstart
      obtain ⟨-, htimeout⟩ := hu.timeout start timeout hleg
      right
      dsimp only [Leg.start] at hstart
      linarith

theorem Scheduled.fire (hu : Scheduled u) {timeStamp : TimeValue} {T : TIMER VoidPtr}
    (hpc : u.pc = .timed timeStamp) (harm : TIMER.Arming timeStamp timeStamp u.timer T) :
    Scheduled { u with timer := T } := by
  obtain ⟨hT, hmem⟩ := harm hu.sound
  have hleg := hu.timed timeStamp hpc
  refine { hu with
    sound := hT
    due_le := fun e he => ?_
    waiting := fun start timeout h => ?_
    rested := fun _ _ h => ?_ }
  · rcases hmem e he with he | ⟨-, hle⟩
    · exact hu.due_le e he
    · have hstart := hu.start_le
      rw [hleg] at hstart
      dsimp only [Leg.start] at hstart ⊢
      linarith
  · cases hleg.symm.trans h
  · cases hpc.symm.trans h

theorem Scheduled.mintimer (hu : Scheduled u) (hpc : u.pc = .idle) :
    Scheduled { u with leg := .waiting u.clock (toInt (outtime u.timer u.clock)) } where
  sound := hu.sound
  start_le := Int.le_refl _
  due_le := hu.due_le
  batch := fun _ h => by cases hpc.symm.trans h
  timed := fun _ h => by cases hpc.symm.trans h
  timeout := by
    intro start timeout h
    cases h
    rw [toInt_outtime hu.sound hu.due_le]
    exact outtime_range hu.sound hu.due_le
  waiting := by
    intro start timeout h
    cases h
    rw [toInt_outtime hu.sound hu.due_le]
    exact outtime_waits hu.sound
  rested := fun _ h => by cases h

/-- What a step keeps. -/
theorem WorkerMove.scheduled (h : WorkerMove u v) (hu : Scheduled u) : Scheduled v := by
  cases h with
  | later => exact hu.later _
  | epollWait hpc hleg =>
    have hlater := hu.later
    refine { hlater _ with
      batch := fun _ _ => ⟨_, _, hleg⟩
      timed := fun _ h => by cases h
      rested := fun _ _ h => by cases h }
  | event hpc harm => exact hu.event hpc harm
  | time hpc =>
    refine { hu.later _ with
      start_le := Int.le_add_of_nonneg_right (Int.natCast_nonneg _)
      batch := fun _ h => by cases h
      timed := fun _ h => by cases h; rfl
      timeout := fun _ _ h => by cases h
      waiting := fun _ _ h => by cases h
      rested := fun _ _ h => by cases h }
  | fire hpc harm => exact (hu.fire hpc harm).later _
  | rest hpc hnone =>
    have hleg := hu.timed _ hpc
    refine { hu.later _ with
      batch := fun _ h => by cases h
      timed := fun _ h => by cases h
      rested := fun start h _ => ?_ }
    cases hleg.symm.trans h
    exact hnone hu.sound
  | mintimer hpc => exact hu.mintimer hpc

end Steps

/-- Every run keeps every worker on its schedule. -/
theorem run_scheduled {cfg : WorkerConfig} {others : ℕ → Bool} {clock : TimeValue}
    {tr : List (Clocked × ClockAct)} {s : Clocked}
    (h : Run nextClocked (setupClocked cfg others clock) tr s)
    (hreads : ∀ p ∈ tr, p.1.Reads p.2) (w : ℕ) : Scheduled (s.view w) :=
  h.invariant_of_steps (fun s => Scheduled (s.view w)) Clocked.Reads
    (fun _ _ _ hs hread hnext => (workerMove_of_step hread hnext w).scheduled hs) hreads
    (setup_scheduled cfg others clock w)

/-- A worker never asks `epoll_wait` to wait without end or for more than ten seconds, nor beyond
the time the earliest of its timers is due; what descriptors it registers in the meantime does not
change this. -/
theorem waits_until_due (cfg : WorkerConfig) (others : ℕ → Bool) (clock : TimeValue)
    {tr : List (Clocked × ClockAct)} {s : Clocked}
    (h : Run nextClocked (setupClocked cfg others clock) tr s)
    (hreads : ∀ p ∈ tr, p.1.Reads p.2) {w : ℕ} {start : TimeValue} {timeout : ℤ}
    (hleg : s.leg w = .waiting start timeout) :
    0 ≤ timeout ∧ timeout ≤ 10*1000 ∧
      ∀ e ∈ (s.timer w).timerTimeArg.entries, timeout = 0 ∨ start+timeout ≤ e.1 := by
  have hs := run_scheduled h hreads w
  obtain ⟨h0, hle⟩ := hs.timeout start timeout hleg
  exact ⟨h0, hle, hs.waiting start timeout hleg⟩

/-! How late a timer fires. -/

def Leg.slack (work latency : ℕ) : Leg → ℕ
  | .waiting _ _ => work
  | .firing _ => work+latency

/-- No timer was overdue by more than the slack when the worker last read the clock. -/
def Prompt (work latency : ℕ) (u : WorkerView) : Prop :=
  ∀ e ∈ u.timer.timerTimeArg.entries, u.leg.start ≤ e.1+u.leg.slack work latency

variable {work latency : ℕ} {u v : WorkerView}

theorem Prompt.event (hprompt : Prompt work latency u) (hu : Scheduled u) {evs : List Event}
    {T : TIMER VoidPtr} {ms : ℕ} (harm : TIMER.Arming u.clock (u.clock+ms) u.timer T) :
    Prompt work latency { u with timer := T, pc := .batch evs, clock := u.clock+ms } := by
  intro e he
  rcases (harm hu.sound).2 e he with he | ⟨hle, -⟩
  · exact hprompt e he
  · have hstart := hu.start_le
    have hslack : (0:ℤ) ≤ u.leg.slack work latency := Int.natCast_nonneg _
    dsimp only
    linarith

/-- When it comes to fire its timers, the worker is late by the latency at most, beyond what it was
late when it began to wait. -/
theorem Prompt.time (hprompt : Prompt work latency u) (hu : Scheduled u)
    (hon : u.leg.OnTime work latency u.clock) (hpc : u.pc = .batch []) (ms : ℕ) :
    Prompt work latency
      { u with pc := .timed u.clock, leg := .firing u.clock, clock := u.clock+ms } := by
  intro e he
  obtain ⟨start, timeout, hleg⟩ := hu.batch _ hpc
  have hlate := hprompt e he
  rw [hleg] at hon
  rw [hleg] at hlate
  dsimp only [Leg.start, Leg.slack] at hlate ⊢
  have hclock := hon (hu.timeout start timeout hleg).1
  have hwork : (0:ℤ) ≤ work := Int.natCast_nonneg work
  rw [Nat.cast_add]
  rcases hu.waiting start timeout hleg e he with hzero | hdue
  -- a timer was due already, and the worker did not wait
  · rw [hzero] at hclock
    linarith
  · linarith

theorem Prompt.fire (hprompt : Prompt work latency u) (hu : Scheduled u) {timeStamp : TimeValue}
    {T : TIMER VoidPtr} (hpc : u.pc = .timed timeStamp)
    (harm : TIMER.Arming timeStamp timeStamp u.timer T) (ms : ℕ) :
    Prompt work latency { u with timer := T, clock := u.clock+ms } := by
  intro e he
  rcases (harm hu.sound).2 e he with he | ⟨hle, -⟩
  · exact hprompt e he
  · have hslack : (0:ℤ) ≤ u.leg.slack work latency := Int.natCast_nonneg _
    have hleg := hu.timed timeStamp hpc
    dsimp only
    rw [hleg] at hslack ⊢
    dsimp only [Leg.start]
    linarith

/-- No timer was due when the worker came to rest. -/
theorem Prompt.mintimer (hu : Scheduled u) (hon : u.leg.OnTime work latency u.clock)
    {start : TimeValue} (hpc : u.pc = .idle) (hleg : u.leg = .firing start) :
    Prompt work latency { u with leg := .waiting u.clock (toInt (outtime u.timer u.clock)) } := by
  intro e he
  have hdue := hu.rested start hleg hpc e he
  rw [hleg] at hon
  dsimp only [Leg.start, Leg.slack, Leg.OnTime] at hon ⊢
  linarith

theorem WorkerMove.prompt (h : WorkerMove u v) (hu : Scheduled u)
    (hon : u.leg.OnTime work latency u.clock) (hprompt : Prompt work latency u) :
    Prompt work latency v := by
  cases h with
  | later => exact hprompt
  | epollWait => exact hprompt
  | event hpc harm => exact hprompt.event hu harm
  | time hpc => exact hprompt.time hu hon hpc _
  | fire hpc harm => exact hprompt.fire hu hpc harm _
  | rest => exact hprompt
  | mintimer hpc hleg => exact .mintimer hu hon hpc hleg

/-- On time, no timer is overdue by more than the time for two legs of firing and the latency. -/
theorem Prompt.overdue (hprompt : Prompt work latency u) (hu : Scheduled u)
    (hon : u.leg.OnTime work latency u.clock) :
    ∀ e ∈ u.timer.timerTimeArg.entries, u.clock ≤ e.1+2*work+latency := by
  intro e he
  have hlate := hprompt e he
  have hwork : (0:ℤ) ≤ work := Int.natCast_nonneg work
  cases hleg : u.leg with
  | waiting start timeout =>
    rw [hleg] at hon hlate
    dsimp only [Leg.start, Leg.slack] at hon hlate
    have hclock := hon (hu.timeout start timeout hleg).1
    rcases hu.waiting start timeout hleg e he with hzero | hdue
    · rw [hzero] at hclock
      linarith
    · linarith
  | firing start =>
    rw [hleg] at hon hlate
    dsimp only [Leg.start, Leg.slack, Leg.OnTime] at hon hlate
    rw [Nat.cast_add] at hlate
    linarith

/-- The workers' own steps of a run with a clock. -/
theorem run_workersOk {cfg : WorkerConfig} {others : ℕ → Bool} {clock : TimeValue}
    {tr : List (Clocked × ClockAct)} {s : Clocked}
    (h : Run nextClocked (setupClocked cfg others clock) tr s)
    (hhand : ∀ p ∈ tr, p.1.HandsOver p.2) : WorkersOk cfg s.toWorkers := by
  refine h.invariant_of_steps (fun s => WorkersOk cfg s.toWorkers) Clocked.HandsOver
    (fun s a s' hs hhand hnext => ?_) hhand (setupWorkers_ok cfg others)
  cases a with
  | pass ms =>
    cases hnext
    exact hs
  | work a ms =>
    simp only [nextClocked] at hnext
    split at hnext
    · obtain ⟨t, ht, rfl⟩ := Option.map_eq_some_iff.mp hnext
      exact hs.step hhand ht
    · cases hnext
  | mintimer w =>
    simp only [nextClocked] at hnext
    split at hnext
    · cases hnext
      exact hs
    · cases hnext

/-- While worker `w` is on time, each of its clients has one timer, and the timer is due within ten
seconds and overdue by no more than the time for two legs of firing and the latency: the client is
written to again by then. -/
theorem clients_on_time (cfg : WorkerConfig) (others : ℕ → Bool) (clock : TimeValue)
    (work latency w : ℕ) {tr : List (Clocked × ClockAct)} {s : Clocked}
    (h : Run nextClocked (setupClocked cfg others clock) tr s)
    (hreads : ∀ p ∈ tr, p.1.Reads p.2) (hhand : ∀ p ∈ tr, p.1.HandsOver p.2)
    (hon : Throughout (fun s => (s.leg w).OnTime work latency s.clock) tr s) :
    ∀ fd ∈ s.clients cfg w, ∃ due : TimeValue,
      (∀ t, (t, .item fd) ∈ (s.timer w).timerTimeArg.entries ↔ t = due) ∧
        due ≤ s.clock+10*1000 ∧ s.clock ≤ due+2*work+latency := by
  have hinv : Scheduled (s.view w) ∧ Prompt work latency (s.view w) := by
    refine h.invariant_of_steps (fun s => Scheduled (s.view w) ∧ Prompt work latency (s.view w))
      (fun s a => s.Reads a ∧ (s.leg w).OnTime work latency s.clock)
      (fun s a s' hs hstep hnext => ?_)
      (fun p hp => ⟨hreads p hp, hon.1 p hp⟩) ⟨setup_scheduled cfg others clock w, ?_⟩
    · have hmove := workerMove_of_step hstep.1 hnext w
      exact ⟨hmove.scheduled hs.1, hmove.prompt hs.1 hstep.2 hs.2⟩
    · exact fun _ he => (List.not_mem_nil he).elim
  obtain ⟨hsched, hprompt⟩ := hinv
  have hworld := (run_workersOk h hhand).world
  have hperm := (hworld.armed w).perms.2
  -- the items of the timers are the clients', each once
  have hnodup : ((s.timer w).timerTimeArg.entries.map Prod.snd).Nodup := by
    refine hperm.nodup_iff.mpr (List.Nodup.map (fun _ _ heq => VoidPtr.item.inj heq) ?_)
    exact (hworld.nodup w).filter _
  intro fd hfd
  have hmem := hperm.mem_iff.mpr (List.mem_map_of_mem (f := VoidPtr.item) hfd)
  obtain ⟨⟨due, x⟩, he, hx⟩ := List.mem_map.mp hmem
  cases hx
  refine ⟨due, fun t => ⟨fun ht => ?_, fun ht => ht ▸ he⟩, hsched.due_le _ he,
    hprompt.overdue hsched hon.2 _ he⟩
  exact congrArg Prod.fst (List.inj_on_of_nodup_map hnodup ht he rfl)

end Clock

section Late

attribute [local instance] VoidPtr.order

/-- Worker 1 before its first round; descriptor 6 is open. -/
def lateStart : Clocked := setupClocked twoCpusWorkers (fun fd => decide (fd = 6)) 0

def lateIo : Io := ⟨[.data [6, 0, 0, 0] fun _ => 301], [], 0⟩

/-- Descriptor 6 is handed over, and `epoll_wait` has not returned two milliseconds after its timer
is due. -/
def lateRun : List ClockAct :=
  [.pass 300, .work (.epollWait 1 [⟨5, .inEt⟩]) 0, .work (.event 1 lateIo) 2,
    .work (.time 1 302) 0, .work (.timer 1 0) 1, .mintimer 1, .pass 10000]

def lateState : Clocked := (exec nextClocked lateStart lateRun).get rfl

theorem lateRun_run : Run nextClocked lateStart (trace nextClocked lateStart lateRun) lateState :=
  Run.of_exec (Option.some_get _).symm

theorem lateRun_reads : ∀ p ∈ trace nextClocked lateStart lateRun, p.1.Reads p.2 := by
  have hio : lateIo.ReadsBetween 300 302 := by
    intro bytes now hmem _
    cases List.mem_singleton.mp hmem
    exact (show (300:ℤ) ≤ 301 ∧ (301:ℤ) ≤ 302 by decide)
  refine List.forall_mem_cons.mpr ⟨trivial, List.forall_mem_cons.mpr ⟨trivial,
    List.forall_mem_cons.mpr ⟨hio, List.forall_mem_cons.mpr ⟨rfl, List.forall_mem_cons.mpr ⟨trivial,
    List.forall_mem_cons.mpr ⟨trivial, List.forall_mem_cons.mpr ⟨trivial, ?_⟩⟩⟩⟩⟩⟩⟩
  exact List.forall_mem_nil _

theorem lateRun_handsOver : ∀ p ∈ trace nextClocked lateStart lateRun, p.1.HandsOver p.2 := by
  have hio (s : Clocked) (hopen : s.opened 6 = true)
      (hinterest : s.interest = lateStart.interest) :
      s.HandsOver (.work (.event 1 lateIo) 2) := by
    intro fd hfd
    cases List.mem_singleton.mp (show fd ∈ [6] from hfd)
    refine ⟨hopen, fun w hw => ?_⟩
    rw [hinterest] at hw
    obtain ⟨_, heq⟩ := mem_setup_interest.mp hw
    change 6 = 2*w+3 at heq
    omega
  refine List.forall_mem_cons.mpr ⟨trivial, List.forall_mem_cons.mpr ⟨trivial,
    List.forall_mem_cons.mpr ⟨hio _ rfl rfl, List.forall_mem_cons.mpr ⟨trivial,
    List.forall_mem_cons.mpr ⟨trivial, List.forall_mem_cons.mpr ⟨trivial,
    List.forall_mem_cons.mpr ⟨trivial, ?_⟩⟩⟩⟩⟩⟩⟩
  exact List.forall_mem_nil _

theorem waits_until_due_late :
    (0:ℤ) ≤ 9998 ∧ (9998:ℤ) ≤ 10*1000 ∧
      ∀ e ∈ (lateState.timer 1).timerTimeArg.entries, (9998:ℤ) = 0 ∨ 303+9998 ≤ e.1 :=
  waits_until_due twoCpusWorkers (fun fd => decide (fd = 6)) 0 lateRun_run lateRun_reads
    (show lateState.leg 1 = .waiting 303 9998 from rfl)

theorem clients_on_time_late :
    ∃ due : TimeValue,
      (∀ t, (t, .item 6) ∈ (lateState.timer 1).timerTimeArg.entries ↔ t = due) ∧
        due ≤ lateState.clock+10*1000 ∧ lateState.clock ≤ due+2*(1:ℕ)+(2:ℕ) :=
  clients_on_time twoCpusWorkers (fun fd => decide (fd = 6)) 0 1 2 1 lateRun_run lateRun_reads
    lateRun_handsOver ⟨by decide +kernel, by decide +kernel⟩ 6
    (show 6 ∈ [6] from List.mem_singleton_self 6)

end Late

end LinuxPrograms.C1000k
