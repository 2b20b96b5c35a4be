import LinuxPrograms.LibFifo
import LinuxPrograms.ThreadpoolSteps
import Mathlib.Data.List.Nodup

/-! The tasks of the thread pool: the queue in its array, each accepted task taken once and in
order, and what `threadpool_add` answers. -/
namespace LinuxPrograms.Threadpool
open Lib

variable {s s' s₀ s₁ : State} {a : Act} {pool : Pool} {pending : List Task} {t : Task} {size : ℕ}
variable {n q : ℤ} {garbage : ℕ → Task}

/-- The tasks that wait in the array. -/
structure Pool.Holds (pool : Pool) (pending : List Task) : Prop where
  ring : Ring pool.queue pool.queueSize pool.head pending
  count : pool.count = pending.length
  tail : pool.tail = (pool.head+pending.length)%pool.queueSize

/-- There is room for what is not refused. -/
theorem Pool.Holds.put (h : pool.Holds pending) (hrefuse : pool.refuses = none) (t : Task) :
    ∃ pool', pool.put t = some pool' ∧ pool'.Holds (pending ++ [t]) ∧
      pool'.queueSize = pool.queueSize := by
  have hroom : pending.length < pool.queueSize := by
    have hfits := h.ring.fits
    have hcount := h.count
    have hfull : pool.count ≠ pool.queueSize := by
      intro hfull
      rw [Pool.refuses, if_pos hfull] at hrefuse
      cases hrefuse
    omega
  obtain ⟨hend, hring⟩ := h.ring.push hroom t
  rw [← h.tail] at hend hring
  refine ⟨_, if_pos hend, ⟨hring, ?_, ?_⟩, rfl⟩
  · have hcount := h.count
    change pool.count+1 = _
    rw [List.length_append, List.length_singleton]
    omega
  · change pool.wrap pool.tail = _
    have hlt : pool.tail < pool.queueSize := by rwa [h.ring.block] at hend
    rw [Pool.wrap, succ_wrap hlt, h.tail, add_mod_succ, List.length_append, List.length_singleton]

/-- A worker that neither waits nor leaves finds the oldest task. -/
theorem Pool.Holds.grab (h : pool.Holds pending) (hwait : ¬pool.Waits) (hbreak : ¬pool.Breaks) :
    ∃ t rest pool', pending = t :: rest ∧ pool.grab = some (t, pool') ∧ pool'.Holds rest ∧
      pool'.queueSize = pool.queueSize := by
  cases pending with
  | nil =>
    have hcount : pool.count = 0 := h.count
    cases hshut : pool.shutdown with
    | none => exact (hwait ⟨hcount, hshut⟩).elim
    | immediate => exact (hbreak (.inl hshut)).elim
    | graceful => exact (hbreak (.inr ⟨hshut, hcount⟩)).elim
  | cons t rest =>
    obtain ⟨hfirst, hring⟩ := h.ring.pop
    have hwrap : pool.wrap pool.head = (pool.head+1)%pool.queueSize := succ_wrap h.ring.start
    have hcount := h.count
    have htail := h.tail
    rw [List.length_cons] at hcount htail
    refine ⟨t, rest, { pool with head := pool.wrap pool.head, count := pool.count-1 }, rfl,
      by rw [Pool.grab, hfirst]; rfl, ⟨?_, ?_, ?_⟩, rfl⟩
    · rw [← hwrap] at hring
      exact hring
    · change pool.count-1 = _
      omega
    · change pool.tail = (pool.wrap pool.head+rest.length)%pool.queueSize
      rw [hwrap, Nat.mod_add_mod, htail, Nat.add_right_comm, Nat.add_assoc]

/-- The task a worker has in hand. -/
def WorkerPc.task : WorkerPc → Option Task
  | .grabbed t | .running t => some t
  | _ => none

def State.held (s : State) : List Task := s.workers.filterMap WorkerPc.task

/-- Tasks are taken in the order in which they were accepted, and each one taken is in hand or
done. -/
structure Accounted (size : ℕ) (s : State) (pending : List Task) : Prop where
  size : s.pool.queueSize = size
  holds : s.pool.Holds pending
  order : s.accepted.map Prod.snd = s.taken ++ pending
  done : (s.finished ++ s.held).Perm s.taken

theorem held_perm_of_calls {k : ℕ} {pc pc' : CallPc} (h : CallMove s k pc pc' s₁) :
    s₁.held.Perm s.held := by
  cases h with
  | signal hi => exact filterMap_set_of_eq hi rfl
  | broadcast =>
    have hwoken (pc : WorkerPc) : pc.woken.task = pc.task := by
      cases pc <;> rfl
    refine List.Perm.of_eq ?_
    rw [State.held, List.filterMap_map]
    exact List.filterMap_congr fun pc _ => hwoken pc
  | _ => exact .refl _

theorem WorkerMove.accounted {i : ℕ} {pc pc' : WorkerPc} (h : WorkerMove s pc pc' s₁)
    (hi : s.workers[i]? = some pc) (hs : Accounted size s pending) :
    ∃ pending, Accounted size (s₁.moveWorker i pc') pending := by
  -- a move that keeps the tasks leaves them where they are
  have hkeep (htask : pc'.task = pc.task) :
      ((s.workers.set i pc').filterMap WorkerPc.task).Perm s.held := filterMap_set_of_eq hi htask
  obtain ⟨rest, hold, hnew⟩ := filterMap_set WorkerPc.task hi
  have hold : (s.finished ++ (pc.task.toList ++ rest)).Perm s.taken :=
    (hold.symm.append_left _).trans hs.done
  cases h with
  | @grab t pool hwait hbreak hgrab =>
    obtain ⟨t', pending', pool', rfl, hgrab', hholds, hsize⟩ := hs.holds.grab hwait hbreak
    rw [hgrab'] at hgrab
    cases hgrab
    refine ⟨pending', hsize.trans hs.size, hholds, ?_, ?_⟩
    · change s.accepted.map Prod.snd = (s.taken ++ [t]) ++ pending'
      rw [hs.order, List.append_assoc]
      rfl
    · have hnew := (hnew (.grabbed t)).append_left s.finished
      exact hnew.trans (List.perm_middle.trans
        ((hold.cons t).trans (List.perm_append_singleton t s.taken).symm))
  | @finish t =>
    refine ⟨pending, hs.size, hs.holds, hs.order, ?_⟩
    have hassoc : s.finished ++ [t] ++ rest = s.finished ++ ([t] ++ rest) :=
      List.append_assoc _ _ _
    exact ((hnew .lock).append_left (s.finished ++ [t])).trans ((List.Perm.of_eq hassoc).trans hold)
  | leave => exact ⟨pending, hs.size, ⟨hs.holds.ring, hs.holds.count, hs.holds.tail⟩, hs.order,
      ((hkeep rfl).append_left _).trans hs.done⟩
  | _ => exact ⟨pending, hs.size, hs.holds, hs.order, ((hkeep rfl).append_left _).trans hs.done⟩

theorem CallMove.accounted {k : ℕ} {pc pc' : CallPc} (h : CallMove s k pc pc' s₁)
    (hs : Accounted size s pending) : ∃ pending, Accounted size (s₁.moveCall k pc') pending := by
  have hheld := held_perm_of_calls h
  cases h with
  | @put t pool hrefuse hput =>
    obtain ⟨pool', hput', hholds, hsize⟩ := hs.holds.put hrefuse t
    rw [hput'] at hput
    cases hput
    refine ⟨pending ++ [t], hsize.trans hs.size, hholds, ?_, hs.done⟩
    change (s.accepted ++ [(k, t)]).map Prod.snd = _
    rw [List.map_append, hs.order, List.append_assoc]
    rfl
  | shut =>
    exact ⟨pending, hs.size, ⟨hs.holds.ring, hs.holds.count, hs.holds.tail⟩, hs.order, hs.done⟩
  | _ => exact ⟨pending, hs.size, hs.holds, hs.order, (hheld.append_left _).trans hs.done⟩

theorem Step.accounted (h : Step s s') (hs : ∃ pending, Accounted size s pending) :
    ∃ pending, Accounted size s' pending := by
  obtain ⟨pending, hs⟩ := hs
  cases h with
  | start =>
    refine ⟨pending, hs.size, ⟨hs.holds.ring, hs.holds.count, hs.holds.tail⟩, hs.order, ?_⟩
    rw [State.held, List.filterMap_append]
    exact (List.append_nil _).symm ▸ hs.done
  | startFailed => exact ⟨pending, hs.size, hs.holds, hs.order, hs.done⟩
  | created => exact ⟨pending, hs.size, hs.holds, hs.order, hs.done⟩
  | enter => exact ⟨pending, hs.size, hs.holds, hs.order, hs.done⟩
  | worker hi hmove => exact hmove.accounted hi hs
  | call hk hmove => exact hmove.accounted hs

theorem setup_accounted {n q : ℕ} (hq : 0 < q) : Accounted q (setup n q garbage) [] := by
  refine ⟨rfl, ⟨Ring.nil ?_ hq, rfl, (Nat.zero_mod q).symm⟩, rfl, .refl _⟩
  change ((List.range q).map garbage).length = q
  rw [List.length_map, List.length_range]

theorem threadpoolCreate_eq (h : threadpoolCreate n q garbage = some s₀) :
    0 < n ∧ n ≤ maxThreads ∧ 0 < q ∧ q ≤ maxQueue ∧ s₀ = setup n.toNat q.toNat garbage := by
  unfold threadpoolCreate at h
  split at h <;> cases h
  next hargs =>
    refine ⟨?_, ?_, ?_, ?_, rfl⟩ <;> omega

/-- What every step keeps and a new pool meets. -/
theorem invariant_of_step {I : State → Prop} (hcreate : threadpoolCreate n q garbage = some s₀)
    (hreach : Reachable next s₀ s)
    (h₀ : 0 < n.toNat → 0 < q.toNat → I (setup n.toNat q.toNat garbage))
    (hstep : ∀ s s', I s → Step s s' → I s') : I s := by
  obtain ⟨hn, -, hq, -, rfl⟩ := threadpoolCreate_eq hcreate
  exact hreach.invariant (fun s a s' hs h => hstep s s' hs (next_step h).2)
    (h₀ (by omega) (by omega))

theorem reachable_accounted (hcreate : threadpoolCreate n q garbage = some s₀)
    (hreach : Reachable next s₀ s) : ∃ pending, Accounted q.toNat s pending :=
  invariant_of_step hcreate hreach (fun _ hq => ⟨[], setup_accounted hq⟩)
    fun _ _ hs h => h.accounted hs

/-- A pool of one thread and one place. -/
def smallPool : State := setup 1 1 fun _ => ⟨0, 0⟩

theorem smallPool_create : threadpoolCreate 1 1 (fun _ => ⟨0, 0⟩) = some smallPool := rfl

/-- One task is added; the worker has slept meanwhile and is woken. -/
def addOne : List Act :=
  [.startThread true, .startThread true, .worker 0, .worker 0, .add ⟨5, 7⟩, .call 0 none,
    .call 0 none, .call 0 (some 0), .call 0 none]

/-- The worker runs the task. -/
def runOne : List Act := List.replicate 4 (.worker 0)

def ranState : State := (exec next smallPool (addOne ++ runOne)).get rfl

theorem ranState_reachable : Reachable next smallPool ranState :=
  Reachable.of_exec (show exec next smallPool (addOne ++ runOne) = some ranState from rfl)

/-- As long as the pool is not freed, neither a worker nor a caller leaves the array: the step in
which it reads or writes a task is defined. -/
theorem array_accesses_defined (hcreate : threadpoolCreate n q garbage = some s₀)
    (hreach : Reachable next s₀ s) (hlive : s.freed = false) :
    (∀ i, s.workers[i]? = some .check → (next s (.worker i)).isSome) ∧
      ∀ k wake t, s.calls[k]? = some (.addTest t) → (next s (.call k wake)).isSome := by
  obtain ⟨pending, hs⟩ := reachable_accounted hcreate hreach
  constructor
  · intro i hi
    simp only [next, hlive, hi, Bool.false_eq_true, if_false, Option.bind_some, threadpoolThread]
    split
    · rfl
    next hwait =>
      split
      · rfl
      next hbreak =>
        obtain ⟨t, rest, pool', -, hgrab, -⟩ := hs.holds.grab hwait hbreak
        rw [hgrab]
        rfl
  · intro k wake t hk
    simp only [next, hlive, hk, Bool.false_eq_true, if_false, Option.bind_some, callStep]
    split
    · rfl
    next hrefuse =>
      obtain ⟨pool', hput, -⟩ := hs.holds.put hrefuse t
      rw [hput]
      rfl

/-- The worker is about to read the task. -/
def checkState : State := (exec next smallPool (addOne ++ [.worker 0])).get rfl

theorem array_accesses_defined_small :
    checkState.workers[0]? = some .check ∧
      (∀ i, checkState.workers[i]? = some .check → (next checkState (.worker i)).isSome) ∧
      ∀ k wake t, checkState.calls[k]? = some (.addTest t) →
        (next checkState (.call k wake)).isSome :=
  ⟨rfl, array_accesses_defined smallPool_create
    (Reachable.of_exec (show exec next smallPool (addOne ++ [.worker 0]) = some checkState
      from rfl)) rfl⟩

/-- `threadpool_destroy` waits for the workers and not for a caller, which may still be about to
lock the mutex of the freed pool. -/
example : (exec next smallPool
    [.startThread true, .startThread true, .add ⟨5, 7⟩, .destroy 0, .call 1 none, .call 1 none,
      .call 1 none, .call 1 none, .worker 0, .worker 0, .worker 0, .call 1 none,
      .call 1 none]).map (fun s => (s.freed, s.calls[0]?)) =
    some (true, some (.addLock ⟨5, 7⟩)) := rfl

/-! The answers. -/

/-- The call has put its task into the queue. -/
def CallPc.added : CallPc → Bool
  | .addSignal => true
  | .addUnlock err | .addReturned err => err = 0
  | _ => false

/-- A call has put its task into the queue at most once, and exactly if its answer says so. -/
structure Answered (s : State) : Prop where
  once : (s.accepted.map Prod.fst).Nodup
  called : ∀ k ∈ s.accepted.map Prod.fst, k < s.calls.length
  settled : ∀ k pc, s.calls[k]? = some pc → (pc.added = true ↔ k ∈ s.accepted.map Prod.fst)

theorem refuses_ne_zero {err : ℤ} (h : pool.refuses = some err) : err ≠ 0 := by
  unfold Pool.refuses at h
  split at h
  · cases h
    decide
  split at h <;> cases h
  decide

theorem Entry.not_added {pc : CallPc} (h : Entry pc) : pc.added = false := by
  cases h <;> rfl

theorem Answered.enter {pc : CallPc} (hs : Answered s) (hpc : pc.added = false) {s' : State}
    (haccepted : s'.accepted = s.accepted) (hcalls : s'.calls = s.calls ++ [pc]) :
    Answered s' := by
  refine ⟨haccepted ▸ hs.once, fun k hk => ?_, fun k pc' hk => ?_⟩
  · rw [haccepted] at hk
    rw [hcalls, List.length_append]
    exact Nat.lt_add_right _ (hs.called k hk)
  · rw [hcalls] at hk
    rw [haccepted]
    by_cases hlt : k < s.calls.length
    · rw [List.getElem?_append_left hlt] at hk
      exact hs.settled k pc' hk
    -- the new call has added nothing yet
    · have hold : k ∉ s.accepted.map Prod.fst := fun hk => hlt (hs.called k hk)
      have hpc' : pc' = pc := by
        have hmem := List.mem_of_getElem? hk
        rw [List.getElem?_append_right (Nat.not_lt.mp hlt)] at hk
        exact List.mem_singleton.mp (List.mem_of_getElem? hk)
      rw [hpc', hpc]
      exact ⟨fun h => (Bool.false_ne_true h).elim, fun h => (hold h).elim⟩

/-- A call that moves without putting a task into the queue. -/
theorem Answered.move {k : ℕ} {pc pc' : CallPc} (hs : Answered s) (hk : s.calls[k]? = some pc)
    {s' : State} (haccepted : s'.accepted = s.accepted) (hcalls : s'.calls = s.calls.set k pc')
    (hsame : pc'.added = pc.added) : Answered s' := by
  refine ⟨haccepted ▸ hs.once, fun j hj => ?_, fun j pc'' hj => ?_⟩
  · rw [haccepted] at hj
    rw [hcalls, List.length_set]
    exact hs.called j hj
  · rw [hcalls] at hj
    rw [haccepted]
    by_cases hjk : j = k
    · subst hjk
      rw [List.getElem?_set_self (List.getElem?_eq_some_iff.mp hk).1] at hj
      cases hj
      rw [hsame]
      exact hs.settled _ _ hk
    · rw [List.getElem?_set_ne (Ne.symm hjk)] at hj
      exact hs.settled j pc'' hj

theorem Step.answered (h : Step s s') (hs : Answered s) : Answered s' := by
  cases h with
  | start => exact ⟨hs.once, hs.called, hs.settled⟩
  | startFailed => exact hs.enter rfl rfl rfl
  | created => exact ⟨hs.once, hs.called, hs.settled⟩
  | enter _ hpc => exact hs.enter hpc.not_added rfl rfl
  | worker hi hmove => cases hmove <;> exact ⟨hs.once, hs.called, hs.settled⟩
  | @call k pc pc' s₁ hk hmove =>
    cases hmove with
    | @refuse t err hrefuse =>
      have hne : decide (err = 0) = false := decide_eq_false (refuses_ne_zero hrefuse)
      exact hs.move hk rfl rfl hne
    | @put t pool hrefuse hput =>
      have hnew : k ∉ s.accepted.map Prod.fst := fun h =>
        Bool.false_ne_true ((hs.settled k _ hk).mpr h)
      have hlt := (List.getElem?_eq_some_iff.mp hk).1
      have hkeys : (s.accepted ++ [(k, t)]).map Prod.fst = s.accepted.map Prod.fst ++ [k] := by
        rw [List.map_append]
        rfl
      refine ⟨?_, fun j hj => ?_, fun j pc'' hj => ?_⟩
      · change ((s.accepted ++ [(k, t)]).map Prod.fst).Nodup
        rw [hkeys]
        rw [← List.concat_eq_append]
        exact hs.once.concat hnew
      · change j < (s.calls.set k .addSignal).length
        change j ∈ (s.accepted ++ [(k, t)]).map Prod.fst at hj
        rw [hkeys, List.mem_append, List.mem_singleton] at hj
        rw [List.length_set]
        rcases hj with hj | rfl
        · exact hs.called j hj
        · exact hlt
      · change (s.calls.set k .addSignal)[j]? = some pc'' at hj
        change _ ↔ j ∈ (s.accepted ++ [(k, t)]).map Prod.fst
        rw [hkeys, List.mem_append, List.mem_singleton]
        by_cases hjk : j = k
        · subst hjk
          rw [List.getElem?_set_self hlt] at hj
          cases hj
          exact iff_of_true rfl (.inr rfl)
        · rw [List.getElem?_set_ne (Ne.symm hjk)] at hj
          rw [hs.settled j pc'' hj]
          exact (or_iff_left hjk).symm
    | _ => exact hs.move hk rfl rfl rfl

/-- A call of `threadpool_add` answers 0 exactly if its task was accepted, and no call has put two
tasks into the queue. -/
theorem add_returns_zero_iff_accepted (hcreate : threadpoolCreate n q garbage = some s₀)
    (hreach : Reachable next s₀ s) :
    (s.accepted.map Prod.fst).Nodup ∧
      ∀ k err, s.calls[k]? = some (.addReturned err) → (err = 0 ↔ ∃ t, (k, t) ∈ s.accepted) := by
  have hs : Answered s := by
    refine invariant_of_step hcreate hreach (fun _ _ => ?_) fun _ _ hs h => h.answered hs
    exact ⟨List.nodup_nil, fun k hk => (List.not_mem_nil hk).elim, fun k pc hk => by cases hk⟩
  refine ⟨hs.once, fun k err hk => ?_⟩
  have hsettled := hs.settled k _ hk
  rw [CallPc.added, decide_eq_true_iff, List.mem_map] at hsettled
  rw [hsettled]
  constructor
  · rintro ⟨⟨j, t⟩, hmem, rfl⟩
    exact ⟨t, hmem⟩
  · rintro ⟨t, hmem⟩
    exact ⟨(k, t), hmem, rfl⟩

theorem add_returns_zero_iff_accepted_small :
    (ranState.accepted.map Prod.fst).Nodup ∧
      ∀ k err, ranState.calls[k]? = some (.addReturned err) →
        (err = 0 ↔ ∃ t, (k, t) ∈ ranState.accepted) :=
  add_returns_zero_iff_accepted smallPool_create ranState_reachable

end LinuxPrograms.Threadpool
