import LinuxPrograms.ThreadpoolShutdown

/-! The thread pool at rest: it stops moving only when its work is done, and it does stop. -/
namespace LinuxPrograms.Threadpool
open Lib

variable {s s' s₀ s₁ : State} {a : Act} {threads size k : ℕ} {n q : ℤ} {garbage : ℕ → Task}

/-- No thread of the program can move. -/
structure State.AtRest (s : State) : Prop where
  creator : ∀ ok, next s (.startThread ok) = none
  workers : ∀ i, next s (.worker i) = none
  calls : ∀ k wake, next s (.call k wake) = none

/-- A worker that cannot move sleeps, has left, or waits for the mutex. -/
theorem Sound.worker_stuck {i : ℕ} {pc : WorkerPc} (hs : Sound threads size s)
    (hi : s.workers[i]? = some pc) (hstuck : threadpoolThread s i pc = none) :
    pc = .waiting ∨ pc = .exited ∨ pc = .lock ∧ s.locked = true := by
  cases pc with
  | lock =>
    cases hlocked : s.locked with
    | true => exact .inr (.inr ⟨rfl, rfl⟩)
    | false =>
      rw [threadpoolThread, hlocked] at hstuck
      cases hstuck
  | check =>
    obtain ⟨pending, haccounted⟩ := hs.accounted
    simp only [threadpoolThread] at hstuck
    split at hstuck
    · cases hstuck
    next hwait =>
      split at hstuck
      · cases hstuck
      next hbreak =>
        obtain ⟨t, rest, pool', -, hgrab, -⟩ := haccounted.holds.grab hwait hbreak
        rw [hgrab] at hstuck
        cases hstuck
  | waiting => exact .inl rfl
  | exited => exact .inr (.inl rfl)
  | _ => cases hstuck

/-- A signal can always be given. -/
theorem exists_signal (workers : List WorkerPc) : ∃ wake, signal workers wake ≠ none := by
  by_cases hsleep : .waiting ∈ workers
  · obtain ⟨i, hi⟩ := List.mem_iff_getElem?.mp hsleep
    refine ⟨some i, ?_⟩
    rw [signal, if_pos hi]
    exact Option.some_ne_none _
  · refine ⟨none, ?_⟩
    rw [signal, if_neg hsleep]
    exact Option.some_ne_none _

/-- A call that cannot move has returned, waits for the mutex, or joins a worker that has not
left. -/
theorem Sound.call_stuck {pc : CallPc} (hs : Sound threads size s) (hk : s.calls[k]? = some pc)
    (hstuck : ∀ wake, callStep s k wake pc = none) :
    pc.returned = true ∨ pc.holds = false ∧ s.locked = true ∨
      ∃ i, pc = .joining i ∧ i < s.pool.threadCount ∧ s.workers[i]? ≠ some .exited := by
  have hfirst := hstuck none
  cases pc with
  | addLock t | destroyLock flags =>
    cases hlocked : s.locked with
    | true => exact .inr (.inl ⟨rfl, rfl⟩)
    | false =>
      rw [callStep, hlocked] at hfirst
      cases hfirst
  | addTest t =>
    obtain ⟨pending, haccounted⟩ := hs.accounted
    simp only [callStep] at hfirst
    split at hfirst
    · cases hfirst
    next hrefuse =>
      obtain ⟨pool', hput, -⟩ := haccounted.holds.put hrefuse t
      rw [hput] at hfirst
      cases hfirst
  | addSignal =>
    obtain ⟨wake, hwake⟩ := exists_signal s.workers
    exact (hwake (Option.map_eq_none_iff.mp (hstuck wake))).elim
  | destroyTest flags =>
    simp only [callStep] at hfirst
    split at hfirst <;> cases hfirst
  | joining i =>
    simp only [callStep] at hfirst
    split at hfirst
    · next hi =>
      split at hfirst
      · cases hfirst
      next hexit => exact .inr (.inr ⟨i, rfl, hi, hexit⟩)
    · next hi =>
      have hstarted := hs.staffed.started_of_joined (Nat.not_lt.mp hi)
        (hs.joined _ (List.mem_of_getElem? hk))
      have hfree := Option.map_eq_none_iff.mp hfirst
      rw [threadpoolFree, if_neg (by omega)] at hfree
      split at hfree
      · next hlocked => exact .inr (.inl ⟨rfl, hlocked⟩)
      · cases hfree
  | addReturned | destroyReturned => exact .inl rfl
  | _ => cases hfirst

theorem countP_eq_zero_of {α : Type*} {p : α → Bool} {l : List α} (h : ∀ x ∈ l, p x = false) :
    l.countP p = 0 :=
  List.countP_eq_zero.mpr fun x hx => Bool.eq_false_iff.mp (h x hx)

/-- At rest nobody holds the mutex, unless a call of `threadpool_destroy` has kept it. -/
theorem Sound.unlocked (hs : Sound threads size s)
    (honce : .destroyReturned threadpoolShutdown ∉ s.calls)
    (hworkers : ∀ i pc, s.workers[i]? = some pc → threadpoolThread s i pc = none)
    (hcalls : ∀ k pc, s.calls[k]? = some pc → ∀ wake, callStep s k wake pc = none) :
    s.locked = false := by
  have hmutex := hs.mutex
  have hnobody : s.workers.countP WorkerPc.holds = 0 := by
    refine countP_eq_zero_of fun pc hpc => ?_
    obtain ⟨i, hi⟩ := List.mem_iff_getElem?.mp hpc
    rcases hs.worker_stuck hi (hworkers i pc hi) with rfl | rfl | ⟨rfl, -⟩ <;> rfl
  have hnocall : s.calls.countP CallPc.holds = 0 := by
    refine countP_eq_zero_of fun pc hpc => ?_
    obtain ⟨k, hk⟩ := List.mem_iff_getElem?.mp hpc
    rcases hs.call_stuck hk (hcalls k pc hk) with hreturned | ⟨hfree, -⟩ | ⟨i, rfl, -⟩
    · cases pc with
      | addReturned => rfl
      | destroyReturned err => exact decide_eq_false fun heq => honce (heq ▸ hpc)
      | _ => cases hreturned
    · exact hfree
    · rfl
  rw [State.Mutex, hnobody, hnocall] at hmutex
  cases hlocked : s.locked with
  | false => rfl
  | true =>
    rw [hlocked] at hmutex
    cases hmutex

theorem next_worker (hfreed : s.freed = false) (i : ℕ) :
    next s (.worker i) = (s.workers[i]?).bind (threadpoolThread s i) := by
  rw [next, hfreed, if_neg Bool.false_ne_true]

theorem next_call (hfreed : s.freed = false) (k : ℕ) (wake : Option ℕ) :
    next s (.call k wake) = (s.calls[k]?).bind (callStep s k wake) := by
  rw [next, hfreed, if_neg Bool.false_ne_true]

/-- At rest no call is on its way in a pool that works. -/
theorem Sound.returned_of_open (hs : Sound threads size s) (hshut : s.pool.shutdown = .none)
    {pc : CallPc} (hpc : pc ∈ s.calls)
    (hstuck : pc.returned = true ∨ ∃ i, pc = .joining i) : pc.returned = true := by
  rcases hstuck with hreturned | ⟨i, rfl⟩
  · exact hreturned
  · have hwon := hs.won
    rw [State.Won, hshut, decide_eq_false (fun h => h rfl), Bool.toNat_false] at hwon
    exact (List.countP_eq_zero.mp hwon _ hpc rfl).elim

/-- What is seen of a pool that has stopped moving: the work is done, and the workers sleep. -/
structure Done (s : State) : Prop where
  creator : s.creator = .returned
  shutdown : s.pool.shutdown = .none
  calls : ∀ pc ∈ s.calls, pc.returned = true
  workers : ∀ pc ∈ s.workers, pc = .waiting
  finished : s.finished.Perm (s.accepted.map Prod.snd)

/-- While the pool works: everybody sleeps, and no task waits. -/
theorem Sound.done_of_open (hs : Sound threads size s) (hthreads : 0 < threads)
    (hshut : s.pool.shutdown = .none) (hcreator : ∀ left, s.creator ≠ .starting left)
    (hworkers : ∀ pc ∈ s.workers, pc = .waiting ∨ pc = .exited)
    (hcalls : ∀ pc ∈ s.calls, pc.returned = true ∨ ∃ i, pc = .joining i) : Done s := by
  have hsleep : ∀ pc ∈ s.workers, pc = .waiting := by
    intro pc hpc
    rcases hworkers pc hpc with hpc' | rfl
    · exact hpc'
    · exact ((hs.left _ hpc rfl).shut hshut).elim
  have hreturned : ∀ pc ∈ s.calls, pc.returned = true :=
    fun pc hpc => hs.returned_of_open hshut hpc (hcalls pc hpc)
  have hcreated : s.creator = .returned := by
    cases hc : s.creator with
    | starting left => exact (hcreator left hc).elim
    | returned => rfl
    | failed =>
      rcases hs.dismissed hc with hasks | hne
      · obtain ⟨pc, hpc, hpc'⟩ := List.countP_pos_iff.mp hasks
        have habsurd := hreturned pc hpc
        cases pc with
        | destroyLock | destroyTest => cases habsurd
        | _ => cases hpc'
      · exact (hne hshut).elim
  -- somebody sleeps, so no more tasks wait than there are workers on their way
  have hhired := hs.staffed.hired
  rw [hcreated] at hhired
  obtain ⟨pc, hpc⟩ := List.exists_mem_of_length_pos (hhired.symm ▸ hthreads)
  have hsome : 0 < s.workers.countP WorkerPc.sleeps :=
    List.countP_pos_iff.mpr ⟨pc, hpc, by rw [hsleep pc hpc]; rfl⟩
  have halert : s.workers.countP WorkerPc.alert = 0 :=
    countP_eq_zero_of fun pc hpc => by rw [hsleep pc hpc]; rfl
  have hsignals : s.calls.countP CallPc.signals = 0 := by
    refine countP_eq_zero_of fun pc hpc => ?_
    have hpc' := hreturned pc hpc
    cases pc with
    | addSignal => cases hpc'
    | _ => rfl
  have hcount : s.pool.count ≤ 0 := by
    rcases hs.attended hshut with hnone | hcount
    · omega
    · rwa [halert, hsignals] at hcount
  obtain ⟨pending, haccounted⟩ := hs.accounted
  have hlength := haccounted.holds.count
  have hnil : pending = [] := List.eq_nil_of_length_eq_zero (by omega)
  have hheld : s.held = [] :=
    List.filterMap_eq_nil_iff.mpr fun pc hpc => by rw [hsleep pc hpc]; rfl
  have hdone := haccounted.done
  rw [hheld, List.append_nil] at hdone
  refine ⟨hcreated, hshut, hreturned, hsleep, ?_⟩
  rw [haccounted.order, hnil, List.append_nil]
  exact hdone

/-- A pool that is shut down moves on until it is freed. -/
theorem Sound.freed_of_shut (hs : Sound threads size s) (hshut : s.pool.shutdown ≠ .none)
    (hworkers : ∀ pc ∈ s.workers, pc = .waiting ∨ pc = .exited)
    (hcalls : ∀ pc ∈ s.calls, pc.returned = true ∨
      ∃ i, pc = .joining i ∧ i < s.pool.threadCount ∧ s.workers[i]? ≠ some .exited) :
    s.freed = true := by
  have hnobroadcast : s.calls.countP CallPc.broadcasts = 0 := by
    refine countP_eq_zero_of fun pc hpc => ?_
    rcases hcalls pc hpc with hreturned | ⟨i, rfl, -⟩
    · cases pc with
      | destroyBroadcast => cases hreturned
      | _ => rfl
    · rfl
  have hnosleep := List.countP_eq_zero.mp (hs.awake hshut hnobroadcast)
  have hexited : ∀ pc ∈ s.workers, pc = .exited := by
    intro pc hpc
    rcases hworkers pc hpc with rfl | hpc'
    · exact (hnosleep _ hpc rfl).elim
    · exact hpc'
  -- the call that shut the pool down
  have hwon := hs.won
  rw [State.Won, decide_eq_true hshut, Bool.toNat_true] at hwon
  obtain ⟨pc, hpc, hwins⟩ := List.countP_pos_iff.mp (show 0 < s.calls.countP CallPc.wins by omega)
  rcases hcalls pc hpc with hreturned | ⟨i, rfl, hi, hexit⟩
  · cases pc with
    | addReturned => cases hwins
    | destroyReturned err =>
      rcases hs.joined _ hpc with rfl | ⟨-, hfreed⟩
      · cases hwins
      · exact hfreed
    | _ => cases hreturned
  · rw [hs.staffed.count] at hi
    exact (hexit (List.getElem?_eq_some_iff.mpr ⟨hi, hexited _ (List.getElem_mem hi)⟩)).elim

theorem Done.at_rest (h : Done s) (hfreed : s.freed = false) : s.AtRest := by
  refine ⟨fun ok => ?_, fun i => ?_, fun k wake => ?_⟩
  · rw [next, hfreed, if_neg Bool.false_ne_true]
    simp only [startThread, h.creator]
  · rw [next_worker hfreed]
    cases hi : s.workers[i]? with
    | none => rfl
    | some pc =>
      rw [h.workers pc (List.mem_of_getElem? hi)]
      rfl
  · rw [next_call hfreed]
    cases hk : s.calls[k]? with
    | none => rfl
    | some pc =>
      have hpc := h.calls pc (List.mem_of_getElem? hk)
      cases pc with
      | addReturned | destroyReturned => rfl
      | _ => cases hpc

/-- The pool stops moving exactly when its work is done: every call has returned, every accepted
task was run, and the workers sleep. It is then not shut down: a shutdown goes on until the pool is
freed. -/
theorem at_rest_iff_done (hcreate : threadpoolCreate n q garbage = some s₀)
    (hreach : Reachable next s₀ s) (hfreed : s.freed = false)
    (honce : .destroyReturned threadpoolShutdown ∉ s.calls) : s.AtRest ↔ Done s := by
  obtain ⟨hthreads, hs⟩ := reachable_sound hcreate hreach
  refine ⟨fun hrest => ?_, fun hdone => hdone.at_rest hfreed⟩
  have hworkers : ∀ i pc, s.workers[i]? = some pc → threadpoolThread s i pc = none := by
    intro i pc hi
    have hstuck := hrest.workers i
    rwa [next_worker hfreed, hi] at hstuck
  have hcalls : ∀ k pc, s.calls[k]? = some pc → ∀ wake, callStep s k wake pc = none := by
    intro k pc hk wake
    have hstuck := hrest.calls k wake
    rwa [next_call hfreed, hk] at hstuck
  have hunlocked := hs.unlocked honce hworkers hcalls
  have hworkers' : ∀ pc ∈ s.workers, pc = .waiting ∨ pc = .exited := by
    intro pc hpc
    obtain ⟨i, hi⟩ := List.mem_iff_getElem?.mp hpc
    rcases hs.worker_stuck hi (hworkers i pc hi) with h | h | ⟨-, hlocked⟩
    · exact .inl h
    · exact .inr h
    · exact (Bool.false_ne_true (hunlocked.symm.trans hlocked)).elim
  have hcalls' : ∀ pc ∈ s.calls, pc.returned = true ∨
      ∃ i, pc = .joining i ∧ i < s.pool.threadCount ∧ s.workers[i]? ≠ some .exited := by
    intro pc hpc
    obtain ⟨k, hk⟩ := List.mem_iff_getElem?.mp hpc
    rcases hs.call_stuck hk (hcalls k pc hk) with h | ⟨-, hlocked⟩ | h
    · exact .inl h
    · exact (Bool.false_ne_true (hunlocked.symm.trans hlocked)).elim
    · exact .inr h
  by_cases hshut : s.pool.shutdown = .none
  · refine hs.done_of_open hthreads hshut ?_ hworkers' fun pc hpc =>
      (hcalls' pc hpc).imp_right fun ⟨i, hi, _⟩ => ⟨i, hi⟩
    intro left hc
    have hstart := hrest.creator true
    rw [next, hfreed, if_neg Bool.false_ne_true] at hstart
    cases left <;> simp only [startThread, hc] at hstart <;> cases hstart
  · have habsurd := hs.freed_of_shut hshut hworkers' hcalls'
    exact (Bool.false_ne_true (hfreed.symm.trans habsurd)).elim

/-- The worker has run the task and sleeps again. -/
def restState : State := (exec next smallPool (addOne ++ List.replicate 6 (.worker 0))).get rfl

theorem at_rest_iff_done_small : restState.AtRest ↔ Done restState :=
  at_rest_iff_done smallPool_create (Reachable.of_exec
    (show exec next smallPool (addOne ++ List.replicate 6 (.worker 0)) = some restState from rfl))
    rfl (by decide)

/-! Moving on. -/

/-- How much a worker can still move, with no new task. -/
def WorkerPc.work : WorkerPc → ℕ
  | .lock => 3
  | .check => 2
  | .waiting => 0
  | .grabbed _ => 5
  | .running _ => 4
  | .leaving => 1
  | .exited => 0

/-- The same for a call on a pool of `n` threads, with what it lets others do. -/
def CallPc.work (n : ℕ) : CallPc → ℕ
  | .addLock _ => 11
  | .addTest _ => 10
  | .addSignal => 5
  | .addUnlock _ => 1
  | .destroyLock _ => 4*n+5
  | .destroyTest _ => 4*n+4
  | .destroyBroadcast => 4*n+3
  | .destroyUnlock => n+2
  | .joining i => n+1-i
  | .addReturned _ | .destroyReturned _ => 0

def Creator.work (n : ℕ) : Creator → ℕ
  | .starting left => 4*left+(4*n+6)
  | _ => 0

def State.work (n : ℕ) (s : State) : ℕ :=
  s.creator.work n+(s.workers.map WorkerPc.work).sum+(s.calls.map (CallPc.work n)).sum+
    4*s.pool.count.toNat

/-- What a step that comes from outside is worth. -/
def Act.cost (n : ℕ) : Act → ℕ
  | .add _ => 12
  | .destroy _ => 4*n+6
  | .spurious _ => 4
  | _ => 0

theorem sum_concat {α : Type*} (f : α → ℕ) (l : List α) (x : α) :
    ((l ++ [x]).map f).sum = (l.map f).sum+f x := by
  rw [List.map_append, List.sum_append, List.map_singleton, List.sum_singleton]

/-- A worker that moves has less to do afterwards, unless it slept. -/
theorem WorkerMove.work {pc pc' : WorkerPc} (h : WorkerMove s pc pc' s₁) (hpc : pc ≠ .waiting)
    (hcount : ¬s.pool.Waits → ¬s.pool.Breaks → 0 < s.pool.count) :
    pc'.work+4*s₁.pool.count.toNat+1 ≤ pc.work+4*s.pool.count.toNat ∧ s₁.creator = s.creator := by
  cases h with
  | grab hwait hbreak hgrab =>
    have hpos := hcount hwait hbreak
    rw [grab_eq hgrab]
    refine ⟨?_, rfl⟩
    change 5+4*(s.pool.count-1).toNat+1 ≤ 2+4*s.pool.count.toNat
    omega
  | wake => exact (hpc rfl).elim
  | _ =>
    refine ⟨?_, rfl⟩
    dsimp only [WorkerPc.work]
    omega

theorem sum_work_woken (l : List WorkerPc) :
    ((l.map WorkerPc.woken).map WorkerPc.work).sum ≤ (l.map WorkerPc.work).sum+3*l.length := by
  induction l with
  | nil => exact Nat.le_refl _
  | cons pc l ih =>
    have hpc : pc.woken.work ≤ pc.work+3 := by
      cases pc with
      | waiting => exact Nat.le_refl 3
      | _ => exact Nat.le_add_right _ _
    rw [List.map_cons, List.map_cons, List.sum_cons, List.map_cons, List.sum_cons, List.length_cons]
    omega

theorem CallMove.work {n : ℕ} {pc pc' : CallPc} (h : CallMove s k pc pc' s₁)
    (hworkers : s.workers.length ≤ n) (hcount : 0 ≤ s.pool.count)
    (hjoining : ∀ i, pc = .joining i → i ≤ n) :
    pc'.work n+(s₁.workers.map WorkerPc.work).sum+4*s₁.pool.count.toNat+1 ≤
        pc.work n+(s.workers.map WorkerPc.work).sum+4*s.pool.count.toNat ∧
      s₁.creator = s.creator := by
  cases h with
  | put _ hput =>
    rw [put_eq hput]
    refine ⟨?_, rfl⟩
    change 5+(s.workers.map WorkerPc.work).sum+4*(s.pool.count+1).toNat+1 ≤
      10+(s.workers.map WorkerPc.work).sum+4*s.pool.count.toNat
    omega
  | @signal i hi =>
    have hsum := sum_set WorkerPc.work hi .lock
    refine ⟨?_, rfl⟩
    dsimp only [CallPc.work, WorkerPc.work, State.moveWorker] at hsum ⊢
    omega
  | broadcast =>
    have hsum := sum_work_woken s.workers
    refine ⟨?_, rfl⟩
    dsimp only [CallPc.work]
    omega
  | @join i | @giveUp i | @free i =>
    have hi := hjoining i rfl
    refine ⟨?_, rfl⟩
    dsimp only [CallPc.work]
    omega
  | _ =>
    refine ⟨?_, rfl⟩
    dsimp only [CallPc.work]
    omega

theorem Sound.workers_le (hs : Sound threads size s) : s.workers.length ≤ threads := by
  have hhired := hs.staffed.hired
  cases hc : s.creator with
  | starting left =>
    rw [hc] at hhired
    exact hhired ▸ Nat.le_add_right _ _
  | returned =>
    rw [hc] at hhired
    exact Nat.le_of_eq hhired
  | failed =>
    rw [hc] at hhired
    exact Nat.le_of_lt hhired

/-- A call does not join more workers than there are. -/
theorem Sound.joining_le {i : ℕ} (hs : Sound threads size s)
    (hk : s.calls[k]? = some (.joining i)) : i ≤ threads := by
  by_contra hlt
  have hworkers := hs.workers_le
  have hlast := hs.joined _ (List.mem_of_getElem? hk) s.workers.length (by omega)
  exact Nat.lt_irrefl _ (List.getElem?_eq_some_iff.mp hlast).1

/-- A step of the threads lowers what is left to do, and one from outside raises it by what it is
worth. -/
theorem Sound.work_next (hs : Sound threads size s) (h : next s a = some s') :
    s'.work threads+1 ≤ s.work threads+a.cost threads := by
  obtain ⟨pending, haccounted⟩ := hs.accounted
  have hlength := haccounted.holds.count
  obtain ⟨hfreed, -⟩ := next_step h
  unfold State.work
  cases a with
  | startThread ok =>
    rw [next, hfreed, if_neg Bool.false_ne_true] at h
    unfold startThread at h
    split at h
    · next left hc =>
      rw [hc]
      split at h <;> cases h
      · dsimp only [Creator.work, Act.cost]
        rw [sum_concat, WorkerPc.work]
        omega
      · dsimp only [Creator.work, Act.cost]
        rw [sum_concat, CallPc.work]
        omega
    · next hc =>
      cases h
      rw [hc]
      dsimp only [Creator.work, Act.cost]
      omega
    · cases h
  | worker i =>
    rw [next_worker hfreed] at h
    obtain ⟨pc, hi, h⟩ := Option.bind_eq_some_iff.mp h
    have hpc : pc ≠ .waiting := by
      rintro rfl
      cases h
    obtain ⟨pc', s₁, hmove, rfl⟩ := threadpoolThread_move h
    have hsum := sum_set WorkerPc.work hi pc'
    obtain ⟨hwork, hcreator⟩ := hmove.work hpc fun hwait hbreak => by
      obtain ⟨t, rest, pool', rfl, -⟩ := haccounted.holds.grab hwait hbreak
      rw [List.length_cons] at hlength
      omega
    dsimp only [State.moveWorker, Act.cost]
    rw [hcreator, hmove.workers, hmove.calls]
    omega
  | spurious i =>
    rw [next, hfreed, if_neg Bool.false_ne_true] at h
    split at h <;> cases h
    next hi =>
      have hsum := sum_set WorkerPc.work hi .lock
      dsimp only [State.moveWorker, Act.cost, WorkerPc.work] at hsum ⊢
      omega
  | add t =>
    rw [next, hfreed, if_neg Bool.false_ne_true] at h
    split at h <;> cases h
    dsimp only [Act.cost]
    rw [sum_concat]
    split <;> dsimp only [CallPc.work] <;> omega
  | destroy flags =>
    rw [next, hfreed, if_neg Bool.false_ne_true] at h
    split at h <;> cases h
    dsimp only [Act.cost]
    rw [sum_concat, CallPc.work]
    omega
  | call k wake =>
    rw [next_call hfreed] at h
    obtain ⟨pc, hk, h⟩ := Option.bind_eq_some_iff.mp h
    obtain ⟨pc', s₁, hmove, rfl⟩ := callStep_move h
    have hsum := sum_set (CallPc.work threads) hk pc'
    obtain ⟨hwork, hcreator⟩ := hmove.work hs.workers_le (by omega) fun i hi =>
      hs.joining_le (hi ▸ hk)
    dsimp only [State.moveCall, Act.cost]
    rw [hcreator, hmove.calls]
    omega

/-- A run takes no more steps than the threads and the calls made account for: left alone, the pool
comes to rest, whatever the order of the steps. -/
theorem run_length_le (hcreate : threadpoolCreate n q garbage = some s₀)
    {tr : List (State × Act)} (h : Run next s₀ tr s) :
    tr.length ≤ 8*n.toNat+6+(tr.map fun p => p.2.cost n.toNat).sum := by
  obtain ⟨-, hs⟩ := reachable_sound hcreate (Reachable.refl s₀)
  obtain ⟨-, -, -, -, rfl⟩ := threadpoolCreate_eq hcreate
  have hbound := h.length_le_of_cost (State.work n.toNat) (Act.cost n.toNat)
    (fun s a s' hs h => hs.step (next_step h).1 (next_step h).2)
    (fun s a s' hs h => hs.work_next h) hs
  have hstart : (setup n.toNat q.toNat garbage).work n.toNat = 8*n.toNat+6 := by
    change 4*n.toNat+(4*n.toNat+6) = _
    omega
  omega

theorem run_length_le_small :
    (trace next smallPool (addOne ++ runOne)).length ≤
      8*(1 : ℤ).toNat+6+((trace next smallPool (addOne ++ runOne)).map
        fun p => p.2.cost (1 : ℤ).toNat).sum :=
  run_length_le smallPool_create
    (Run.of_exec (show exec next smallPool (addOne ++ runOne) = some ranState from rfl))

end LinuxPrograms.Threadpool
