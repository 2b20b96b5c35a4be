import LinuxPrograms.ThreadpoolInvariants

/-! The end of the thread pool: what is done when `threadpool_destroy` returns, and what its second
call does to the pool. -/
namespace LinuxPrograms.Threadpool
open Lib

variable {s s' s₀ s₁ : State} {a : Act} {threads size k : ℕ} {n q : ℤ} {garbage : ℕ → Task}

theorem Sound.pending_of_breaks (hs : Sound threads size s) (hbreaks : s.pool.Breaks)
    (hgraceful : s.pool.shutdown = .graceful) : s.accepted.map Prod.snd = s.taken := by
  obtain ⟨pending, haccounted⟩ := hs.accounted
  rcases hbreaks with himmediate | ⟨-, hzero⟩
  · rw [hgraceful] at himmediate
    cases himmediate
  · have hcount := haccounted.holds.count
    rw [hzero] at hcount
    have hnil : pending = [] := List.eq_nil_of_length_eq_zero (by omega)
    rw [haccounted.order, hnil, List.append_nil]

/-- A shutdown stays what it is, and no task is accepted any more. -/
theorem nothing_accepted_after_shutdown (hshut : s.pool.shutdown ≠ .none)
    (hlater : Reachable next s s') :
    s'.pool.shutdown = s.pool.shutdown ∧ s'.accepted = s.accepted := by
  refine hlater.invariant
    (I := fun u => u.pool.shutdown = s.pool.shutdown ∧ u.accepted = s.accepted) ?_ ⟨rfl, rfl⟩
  rintro u a u' ⟨hu, haccepted⟩ h
  obtain ⟨-, h⟩ := next_step h
  rw [← hu] at hshut
  refine ⟨(h.shutdown hshut).trans hu, Eq.trans ?_ haccepted⟩
  cases h with
  | worker hi hmove => cases hmove <;> rfl
  | call hk hmove =>
    cases hmove with
    | put hrefuse =>
      unfold Pool.refuses at hrefuse
      rw [if_pos hshut] at hrefuse
      split at hrefuse <;> cases hrefuse
    | _ => rfl
  | _ => rfl

/-- When `threadpool_destroy` returns 0, the pool is freed, all workers have left, and they have
run a first part of the accepted tasks, after a graceful shutdown all of them. The accepted tasks
are those accepted before the shutdown. -/
theorem destroy_returns_zero (hcreate : threadpoolCreate n q garbage = some s₀)
    (hreach : Reachable next s₀ s) (hk : s.calls[k]? = some (.destroyReturned 0)) :
    s.freed = true ∧ (∀ pc ∈ s.workers, pc = .exited) ∧ s.finished.Perm s.taken ∧
      s.taken <+: s.accepted.map Prod.snd ∧
      (s.creator = .returned → s.pool.shutdown = .graceful →
        s.finished.Perm (s.accepted.map Prod.snd)) ∧
      ∀ u, Reachable next u s → u.pool.shutdown ≠ .none → s.accepted = u.accepted := by
  obtain ⟨hthreads, hs⟩ := reachable_sound hcreate hreach
  have hfreed : s.freed = true := by
    rcases hs.joined _ (List.mem_of_getElem? hk) with habsurd | ⟨-, hfreed⟩
    · cases habsurd
    · exact hfreed
  obtain ⟨-, hexited⟩ := hs.closed hfreed
  obtain ⟨pending, haccounted⟩ := hs.accounted
  have hheld : s.held = [] := by
    refine List.filterMap_eq_nil_iff.mpr fun pc hpc => ?_
    rw [hexited pc hpc]
    rfl
  have hdone := haccounted.done
  rw [hheld, List.append_nil] at hdone
  refine ⟨hfreed, hexited, hdone, ⟨pending, haccounted.order.symm⟩, fun hc hgraceful => ?_,
    fun u hlater hshut => (nothing_accepted_after_shutdown hshut hlater).2⟩
  -- the pool has a worker, and it has left
  have hhired := hs.staffed.hired
  rw [hc] at hhired
  obtain ⟨pc, hpc⟩ := List.exists_mem_of_length_pos (hhired.symm ▸ hthreads)
  have hbreaks := hs.left pc hpc (by rw [hexited pc hpc]; rfl)
  rw [hs.pending_of_breaks hbreaks hgraceful]
  exact hdone

/-- A graceful `threadpool_destroy` up to its wait for the worker. -/
def destroyGraceful : List Act := .destroy 1 :: List.replicate 4 (.call 1 none)

def destroyedState : State :=
  (exec next smallPool (addOne ++ destroyGraceful ++ runOne ++ List.replicate 3 (.worker 0) ++
    List.replicate 2 (.call 1 none))).get rfl

theorem destroyedState_reachable : Reachable next smallPool destroyedState :=
  Reachable.of_exec (show exec next smallPool (addOne ++ destroyGraceful ++ runOne ++
    List.replicate 3 (.worker 0) ++ List.replicate 2 (.call 1 none)) = some destroyedState from rfl)

theorem destroy_returns_zero_small :
    destroyedState.freed = true ∧ (∀ pc ∈ destroyedState.workers, pc = .exited) ∧
      destroyedState.finished.Perm destroyedState.taken ∧
      destroyedState.taken <+: destroyedState.accepted.map Prod.snd ∧
      (destroyedState.creator = .returned → destroyedState.pool.shutdown = .graceful →
        destroyedState.finished.Perm (destroyedState.accepted.map Prod.snd)) ∧
      ∀ u, Reachable next u destroyedState → u.pool.shutdown ≠ .none →
        destroyedState.accepted = u.accepted :=
  destroy_returns_zero (k := 1) smallPool_create destroyedState_reachable rfl

/-- The pool is shut down, and its task is still to be run. -/
def shutState : State := (exec next smallPool (addOne ++ destroyGraceful)).get rfl

/-! The second call. It returns with the mutex locked. -/

/-- Nobody holds the mutex beside the one who does. -/
theorem State.Mutex.alone {pc : CallPc} (hs : s.Mutex) (hk : s.calls[k]? = some pc)
    (hpc : pc.holds = true) :
    (∀ pc' ∈ s.workers, pc'.holds = false) ∧
      ∀ j pc', j ≠ k → s.calls[j]? = some pc' → pc'.holds = false := by
  have hset := countP_set CallPc.holds hk (.joining 0)
  have hone := Bool.toNat_le s.locked
  unfold State.Mutex at hs
  rw [hpc, Bool.toNat_true] at hset
  dsimp only [CallPc.holds, Bool.toNat, cond] at hset
  constructor
  · intro pc' hmem
    have hzero : s.workers.countP WorkerPc.holds = 0 := by omega
    have hnone := List.countP_eq_zero.mp hzero pc' hmem
    exact Bool.eq_false_iff.mpr hnone
  · intro j pc' hj hmem
    rw [← List.getElem?_set_ne (Ne.symm hj)] at hmem
    have hnone := List.countP_eq_zero.mp
      (show (s.calls.set k (.joining 0)).countP CallPc.holds = 0 by omega) pc'
      (List.mem_of_getElem? hmem)
    exact Bool.eq_false_iff.mpr hnone

theorem WorkerMove.taken_of_locked {pc pc' : WorkerPc} (h : WorkerMove s pc pc' s₁)
    (hlocked : s.locked = true) (hpc : pc.holds = false) :
    s₁.taken = s.taken ∧ s₁.accepted = s.accepted ∧ s₁.freed = s.freed := by
  cases h with
  | lock hfree =>
    rw [hlocked] at hfree
    cases hfree
  | finish | wake => exact ⟨rfl, rfl, rfl⟩
  | _ => cases hpc

theorem CallMove.waits_of_locked {pc pc' : CallPc} (h : CallMove s k pc pc' s₁)
    (hlocked : s.locked = true) (hpc : pc.holds = false) :
    s₁ = s ∧ ∃ i, pc' = .joining (i+1) ∨ pc' = .destroyReturned 0 := by
  cases h with
  | addLock hfree | destroyLock hfree | free _ _ hfree =>
    rw [hlocked] at hfree
    cases hfree
  | @join i => exact ⟨rfl, i, .inl rfl⟩
  | @giveUp i => exact ⟨rfl, i, .inr rfl⟩
  | _ => cases hpc

def CallPc.returned : CallPc → Bool
  | .addReturned _ | .destroyReturned _ => true
  | _ => false

/-- What has become of the pool since `threadpool_destroy` found it shut down. -/
structure Stranded (k : ℕ) (s s' : State) : Prop where
  freed : s'.freed = false
  call : s'.calls[k]? = some (.destroyReturned threadpoolShutdown)
  accepted : s'.accepted = s.accepted
  taken : s'.taken = s.taken
  returned : ∀ (j : ℕ) (pc : CallPc), s'.calls[j]? = some pc → pc.returned = true →
    s.calls[j]? = some pc ∨ pc = .addReturned threadpoolInvalid

theorem Stranded.step {u u' : State} (h : Step u u') (hs : Stranded k s u)
    (hu : Sound threads size u) : Stranded k s u' := by
  have hlocked := hu.mutex.locked_of_call hs.call rfl
  obtain ⟨hworkers, hcalls⟩ := hu.mutex.alone hs.call rfl
  have happend (pc : CallPc) (hpc : pc.returned = true → pc = .addReturned threadpoolInvalid)
      {u' : State} (hfreed : u'.freed = u.freed) (haccepted : u'.accepted = u.accepted)
      (htaken : u'.taken = u.taken) (hcalls' : u'.calls = u.calls ++ [pc]) : Stranded k s u' := by
    refine ⟨hfreed.trans hs.freed, ?_, haccepted.trans hs.accepted, htaken.trans hs.taken, ?_⟩
    · rw [hcalls', List.getElem?_append_left (List.getElem?_eq_some_iff.mp hs.call).1, hs.call]
    · intro j pc' hj hreturned
      rw [hcalls'] at hj
      by_cases hlt : j < u.calls.length
      · rw [List.getElem?_append_left hlt] at hj
        exact hs.returned j pc' hj hreturned
      · rw [List.getElem?_append_right (Nat.not_lt.mp hlt)] at hj
        have hpc' := List.mem_singleton.mp (List.mem_of_getElem? hj)
        rw [hpc'] at hreturned ⊢
        exact .inr (hpc hreturned)
  have hjoined := h.joined hu.staffed hu.joined
  cases h with
  | start => exact ⟨hs.freed, hs.call, hs.accepted, hs.taken, hs.returned⟩
  | startFailed => exact happend (.destroyLock 0) (fun h => by cases h) rfl rfl rfl rfl
  | created => exact ⟨hs.freed, hs.call, hs.accepted, hs.taken, hs.returned⟩
  | @enter pc _ hpc =>
    refine happend pc (fun hreturned => ?_) rfl rfl rfl rfl
    cases hpc with
    | invalid => rfl
    | _ => cases hreturned
  | worker hi hmove =>
    obtain ⟨htaken, haccepted, hfreed⟩ :=
      hmove.taken_of_locked hlocked (hworkers _ (List.mem_of_getElem? hi))
    refine ⟨hfreed.trans hs.freed, ?_, haccepted.trans hs.accepted, htaken.trans hs.taken, ?_⟩
    · exact hmove.calls ▸ hs.call
    · dsimp only [State.moveWorker]
      rw [hmove.calls]
      exact hs.returned
  | @call j pc pc' u₁ hj hmove =>
    have hne : j ≠ k := by
      rintro rfl
      rw [hs.call] at hj
      cases hj
      cases hmove
    obtain ⟨rfl, i, hpc'⟩ := hmove.waits_of_locked hlocked (hcalls j pc hne hj)
    refine ⟨hs.freed, (List.getElem?_set_ne hne).trans hs.call, hs.accepted, hs.taken, ?_⟩
    intro l pc'' hl hreturned
    by_cases hlj : l = j
    · subst hlj
      rw [State.moveCall, List.getElem?_set_self (List.getElem?_eq_some_iff.mp hj).1] at hl
      cases hl
      -- a call that joins does not return, since `threadpool_free` would have to lock
      rcases hpc' with rfl | rfl
      · cases hreturned
      · rcases hjoined _ (List.mem_set (List.getElem?_eq_some_iff.mp hj).1 _) with habsurd | hfreed
        · cases habsurd
        · exact (Bool.false_ne_true (hs.freed.symm.trans hfreed.2)).elim
    · refine hs.returned l pc'' ?_ hreturned
      rw [← hl]
      exact (List.getElem?_set_ne (Ne.symm hlj)).symm

/-- Once a call of `threadpool_destroy` has returned that the pool is shutting down, no other call
on the pool returns, except to refuse a `NULL` function, no worker takes a task, and the pool is
never freed. -/
theorem second_destroy_strands (hcreate : threadpoolCreate n q garbage = some s₀)
    (hreach : Reachable next s₀ s) (hk : s.calls[k]? = some (.destroyReturned threadpoolShutdown))
    (hlater : Reachable next s s') :
    s'.freed = false ∧ s'.accepted = s.accepted ∧ s'.taken = s.taken ∧
      ∀ (j : ℕ) (pc : CallPc), s'.calls[j]? = some pc → pc.returned = true →
        s.calls[j]? = some pc ∨ pc = .addReturned threadpoolInvalid := by
  obtain ⟨-, hs⟩ := reachable_sound hcreate hreach
  have hfreed : s.freed = false := by
    by_contra hfreed
    have hunlocked := (hs.closed (Bool.not_eq_false _ ▸ hfreed)).1
    rw [hs.mutex.locked_of_call hk rfl] at hunlocked
    cases hunlocked
  have hstranded := (hlater.invariant
    (I := fun u => Sound n.toNat q.toNat u ∧ Stranded k s u)
    (fun u a u' hu h => ⟨hu.1.step (next_step h).1 (next_step h).2,
      hu.2.step (next_step h).2 hu.1⟩)
    ⟨hs, hfreed, hk, rfl, rfl, fun j pc hj _ => .inl hj⟩).2
  exact ⟨hstranded.freed, hstranded.accepted, hstranded.taken, hstranded.returned⟩

def strandedState : State :=
  (exec next shutState (.destroy 0 :: List.replicate 2 (.call 2 none))).get rfl

theorem strandedState_reachable : Reachable next smallPool strandedState :=
  Reachable.of_exec (show exec next smallPool (addOne ++ destroyGraceful ++
    .destroy 0 :: List.replicate 2 (.call 2 none)) = some strandedState from rfl)

/-- Another task is offered. -/
def laterState : State := (exec next strandedState [.add ⟨1, 1⟩]).get rfl

theorem second_destroy_strands_small :
    laterState.freed = false ∧ laterState.accepted = strandedState.accepted ∧
      laterState.taken = strandedState.taken ∧
      ∀ (j : ℕ) (pc : CallPc), laterState.calls[j]? = some pc → pc.returned = true →
        strandedState.calls[j]? = some pc ∨ pc = .addReturned threadpoolInvalid :=
  second_destroy_strands (k := 2) smallPool_create strandedState_reachable rfl
    (Reachable.of_exec (show exec next strandedState [.add ⟨1, 1⟩] = some laterState from rfl))

end LinuxPrograms.Threadpool
