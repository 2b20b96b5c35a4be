import LinuxPrograms.LibThreads
import LinuxPrograms.ThreadpoolModel

/-! What one step of the thread pool can do, by the thread that moves, and who holds the mutex. -/
namespace LinuxPrograms.Threadpool
open Lib

variable {s s' s₁ : State} {a : Act}

/-- A worker goes from one place to another; the last state has everything but its new place. -/
inductive WorkerMove (s : State) : WorkerPc → WorkerPc → State → Prop
  | lock (hfree : s.locked = false) : WorkerMove s .lock .check { s with locked := true }
  | wait (hwait : s.pool.Waits) : WorkerMove s .check .waiting { s with locked := false }
  | leave (hwait : ¬s.pool.Waits) (hbreak : s.pool.Breaks) :
      WorkerMove s .check .leaving { s with pool := { s.pool with started := s.pool.started-1 } }
  | grab {t : Task} {pool : Pool} (hwait : ¬s.pool.Waits) (hbreak : ¬s.pool.Breaks)
      (hgrab : s.pool.grab = some (t, pool)) :
      WorkerMove s .check (.grabbed t) { s with pool := pool, taken := s.taken ++ [t] }
  | unlock {t : Task} : WorkerMove s (.grabbed t) (.running t) { s with locked := false }
  | finish {t : Task} : WorkerMove s (.running t) .lock { s with finished := s.finished ++ [t] }
  | exit : WorkerMove s .leaving .exited { s with locked := false }
  | wake : WorkerMove s .waiting .lock s

/-- The same for call `k`. -/
inductive CallMove (s : State) (k : ℕ) : CallPc → CallPc → State → Prop
  | addLock {t : Task} (hfree : s.locked = false) :
      CallMove s k (.addLock t) (.addTest t) { s with locked := true }
  | refuse {t : Task} {err : ℤ} (hrefuse : s.pool.refuses = some err) :
      CallMove s k (.addTest t) (.addUnlock err) s
  | put {t : Task} {pool : Pool} (hrefuse : s.pool.refuses = none)
      (hput : s.pool.put t = some pool) :
      CallMove s k (.addTest t) .addSignal
        { s with pool := pool, accepted := s.accepted ++ [(k, t)] }
  | signalNobody (hnobody : .waiting ∉ s.workers) : CallMove s k .addSignal (.addUnlock 0) s
  | signal {i : ℕ} (hi : s.workers[i]? = some .waiting) :
      CallMove s k .addSignal (.addUnlock 0) (s.moveWorker i .lock)
  | addUnlock {err : ℤ} :
      CallMove s k (.addUnlock err) (.addReturned err) { s with locked := false }
  | destroyLock {flags : BitVec 32} (hfree : s.locked = false) :
      CallMove s k (.destroyLock flags) (.destroyTest flags) { s with locked := true }
  | again {flags : BitVec 32} (hshut : s.pool.shutdown ≠ .none) :
      CallMove s k (.destroyTest flags) (.destroyReturned threadpoolShutdown) s
  | shut {flags : BitVec 32} (hshut : s.pool.shutdown = .none) :
      CallMove s k (.destroyTest flags) .destroyBroadcast
        { s with pool := { s.pool with shutdown := shutdownFor flags } }
  | broadcast :
      CallMove s k .destroyBroadcast .destroyUnlock { s with workers := s.workers.map .woken }
  | destroyUnlock : CallMove s k .destroyUnlock (.joining 0) { s with locked := false }
  | join {i : ℕ} (hi : i < s.pool.threadCount) (hexit : s.workers[i]? = some .exited) :
      CallMove s k (.joining i) (.joining (i+1)) s
  | giveUp {i : ℕ} (hi : s.pool.threadCount ≤ i) (hstarted : s.pool.started > 0) :
      CallMove s k (.joining i) (.destroyReturned 0) s
  | free {i : ℕ} (hi : s.pool.threadCount ≤ i) (hstarted : s.pool.started ≤ 0)
      (hfree : s.locked = false) :
      CallMove s k (.joining i) (.destroyReturned 0) { s with freed := true }

/-- The places a new call begins at. -/
inductive Entry : CallPc → Prop
  | invalid : Entry (.addReturned threadpoolInvalid)
  | add {t : Task} (ht : t.function ≠ 0) : Entry (.addLock t)
  | destroy {flags : BitVec 32} : Entry (.destroyLock flags)

inductive Step (s : State) : State → Prop
  | start {left : ℕ} (hc : s.creator = .starting (left+1)) :
      Step s { s with
        pool := { s.pool with
          threadCount := s.pool.threadCount+1, started := s.pool.started+1 }
        workers := s.workers ++ [.lock]
        creator := .starting left }
  | startFailed {left : ℕ} (hc : s.creator = .starting (left+1)) :
      Step s { s with calls := s.calls ++ [.destroyLock 0], creator := .failed }
  | created (hc : s.creator = .starting 0) : Step s { s with creator := .returned }
  | enter {pc : CallPc} (hc : s.creator = .returned) (hpc : Entry pc) :
      Step s { s with calls := s.calls ++ [pc] }
  | worker {i : ℕ} {pc pc' : WorkerPc} {s₁ : State} (hi : s.workers[i]? = some pc)
      (hmove : WorkerMove s pc pc' s₁) : Step s (s₁.moveWorker i pc')
  | call {k : ℕ} {pc pc' : CallPc} {s₁ : State} (hk : s.calls[k]? = some pc)
      (hmove : CallMove s k pc pc' s₁) : Step s (s₁.moveCall k pc')

theorem startThread_step {ok : Bool} (h : startThread s ok = some s') : Step s s' := by
  unfold startThread at h
  split at h
  · next left hc =>
    split at h <;> cases h
    · exact .start hc
    · exact .startFailed hc
  · next hc =>
    cases h
    exact .created hc
  · cases h

theorem threadpoolThread_move {i : ℕ} {pc : WorkerPc} (h : threadpoolThread s i pc = some s') :
    ∃ pc' s₁, WorkerMove s pc pc' s₁ ∧ s' = s₁.moveWorker i pc' := by
  cases pc with
  | lock =>
    simp only [threadpoolThread] at h
    split at h <;> cases h
    next hfree => exact ⟨_, _, .lock (Bool.eq_false_iff.mpr hfree), rfl⟩
  | check =>
    simp only [threadpoolThread] at h
    split at h
    · next hwait =>
      cases h
      exact ⟨_, _, .wait hwait, rfl⟩
    next hwait =>
      split at h
      · next hbreak =>
        cases h
        exact ⟨_, _, .leave hwait hbreak, rfl⟩
      · next hbreak =>
        obtain ⟨⟨t, pool⟩, hgrab, rfl⟩ := Option.map_eq_some_iff.mp h
        exact ⟨_, _, .grab hwait hbreak hgrab, rfl⟩
  | waiting => cases h
  | grabbed t =>
    cases h
    exact ⟨_, _, .unlock, rfl⟩
  | running t =>
    cases h
    exact ⟨_, _, .finish, rfl⟩
  | leaving =>
    cases h
    exact ⟨_, _, .exit, rfl⟩
  | exited => cases h

theorem callStep_move {k : ℕ} {wake : Option ℕ} {pc : CallPc}
    (h : callStep s k wake pc = some s') :
    ∃ pc' s₁, CallMove s k pc pc' s₁ ∧ s' = s₁.moveCall k pc' := by
  cases pc with
  | addLock t =>
    simp only [callStep] at h
    split at h <;> cases h
    next hfree => exact ⟨_, _, .addLock (Bool.eq_false_iff.mpr hfree), rfl⟩
  | addTest t =>
    simp only [callStep] at h
    split at h
    · next hrefuse =>
      cases h
      exact ⟨_, _, .refuse hrefuse, rfl⟩
    · next hrefuse =>
      obtain ⟨pool, hput, rfl⟩ := Option.map_eq_some_iff.mp h
      exact ⟨_, _, .put hrefuse hput, rfl⟩
  | addSignal =>
    obtain ⟨workers, hsignal, rfl⟩ := Option.map_eq_some_iff.mp h
    unfold signal at hsignal
    split at hsignal <;> split at hsignal <;> cases hsignal
    · next hnobody => exact ⟨_, _, .signalNobody hnobody, rfl⟩
    · next hi => exact ⟨_, _, .signal hi, rfl⟩
  | addUnlock err =>
    cases h
    exact ⟨_, _, .addUnlock, rfl⟩
  | addReturned err => cases h
  | destroyLock flags =>
    simp only [callStep] at h
    split at h <;> cases h
    next hfree => exact ⟨_, _, .destroyLock (Bool.eq_false_iff.mpr hfree), rfl⟩
  | destroyTest flags =>
    simp only [callStep] at h
    split at h <;> cases h
    · next hshut => exact ⟨_, _, .again hshut, rfl⟩
    · next hshut => exact ⟨_, _, .shut (not_not.mp hshut), rfl⟩
  | destroyBroadcast =>
    cases h
    exact ⟨_, _, .broadcast, rfl⟩
  | destroyUnlock =>
    cases h
    exact ⟨_, _, .destroyUnlock, rfl⟩
  | joining i =>
    simp only [callStep] at h
    split at h
    · next hi =>
      split at h <;> cases h
      next hexit => exact ⟨_, _, .join hi hexit, rfl⟩
    · next hi =>
      obtain ⟨s₁, hfree, rfl⟩ := Option.map_eq_some_iff.mp h
      unfold threadpoolFree at hfree
      split at hfree
      · next hstarted =>
        cases hfree
        exact ⟨_, _, .giveUp (Nat.not_lt.mp hi) hstarted, rfl⟩
      · next hstarted =>
        split at hfree <;> cases hfree
        next hlocked =>
          exact ⟨_, _, .free (Nat.not_lt.mp hi) (Int.not_lt.mp hstarted)
            (Bool.eq_false_iff.mpr hlocked), rfl⟩
  | destroyReturned err => cases h

theorem next_step (h : next s a = some s') : s.freed = false ∧ Step s s' := by
  unfold next at h
  split at h
  · cases h
  next hfreed =>
    refine ⟨Bool.eq_false_iff.mpr hfreed, ?_⟩
    split at h
    · exact startThread_step h
    · obtain ⟨pc, hi, h⟩ := Option.bind_eq_some_iff.mp h
      obtain ⟨pc', s₁, hmove, rfl⟩ := threadpoolThread_move h
      exact .worker hi hmove
    · split at h <;> cases h
      next hi => exact .worker hi .wake
    · split at h <;> cases h
      next t hc =>
        refine .enter (not_not.mp hc) ?_
        split
        · exact .invalid
        · next ht => exact .add ht
    · split at h <;> cases h
      next hc => exact .enter (not_not.mp hc) .destroy
    · obtain ⟨pc, hk, h⟩ := Option.bind_eq_some_iff.mp h
      obtain ⟨pc', s₁, hmove, rfl⟩ := callStep_move h
      exact .call hk hmove

/-! The mutex. -/

def WorkerPc.holds : WorkerPc → Bool
  | .check | .grabbed _ | .leaving => true
  | _ => false

/-- The call of `threadpool_destroy` that finds the pool shut down keeps the mutex. -/
def CallPc.holds : CallPc → Bool
  | .addTest _ | .addSignal | .addUnlock _ | .destroyTest _ | .destroyBroadcast
  | .destroyUnlock => true
  | .destroyReturned err => err = threadpoolShutdown
  | _ => false

/-- The mutex is locked exactly while one thread has it. -/
def State.Mutex (s : State) : Prop :=
  s.workers.countP WorkerPc.holds+s.calls.countP CallPc.holds = s.locked.toNat

theorem Entry.holds {pc : CallPc} (h : Entry pc) : pc.holds = false := by
  cases h <;> rfl

theorem countP_woken {p : WorkerPc → Bool} (hp : p .waiting = p .lock) (l : List WorkerPc) :
    (l.map .woken).countP p = l.countP p := by
  have hwoken (pc : WorkerPc) : p pc.woken = p pc := by
    cases pc with
    | waiting => exact hp.symm
    | _ => rfl
  rw [List.countP_map]
  exact List.countP_congr fun pc _ => by rw [Function.comp_apply, hwoken]

theorem WorkerMove.workers {pc pc' : WorkerPc} (h : WorkerMove s pc pc' s₁) :
    s₁.workers = s.workers := by
  cases h <;> rfl

theorem WorkerMove.calls {pc pc' : WorkerPc} (h : WorkerMove s pc pc' s₁) :
    s₁.calls = s.calls := by
  cases h <;> rfl

theorem CallMove.calls {k : ℕ} {pc pc' : CallPc} (h : CallMove s k pc pc' s₁) :
    s₁.calls = s.calls := by
  cases h <;> rfl

theorem WorkerMove.locked {pc pc' : WorkerPc} (h : WorkerMove s pc pc' s₁)
    (hheld : pc.holds = true → s.locked = true) :
    s₁.locked.toNat+pc.holds.toNat = s.locked.toNat+pc'.holds.toNat := by
  cases h with
  | lock hfree =>
    rw [hfree]
    rfl
  | wait | unlock | exit =>
    rw [hheld rfl]
    rfl
  | _ => rfl

theorem CallMove.locked {k : ℕ} {pc pc' : CallPc} (h : CallMove s k pc pc' s₁)
    (hheld : pc.holds = true → s.locked = true) :
    s₁.locked.toNat+pc.holds.toNat = s.locked.toNat+pc'.holds.toNat := by
  cases h with
  | addLock hfree | destroyLock hfree =>
    rw [hfree]
    rfl
  | addUnlock | destroyUnlock =>
    rw [hheld rfl]
    rfl
  | _ => rfl

/-- What a call does to the workers changes no count that does not tell a waiting worker from one
that is about to lock. -/
theorem CallMove.countP_workers {k : ℕ} {pc pc' : CallPc} (h : CallMove s k pc pc' s₁)
    {p : WorkerPc → Bool} (hp : p .waiting = p .lock) :
    s₁.workers.countP p = s.workers.countP p := by
  cases h with
  | signal hi =>
    have hset := countP_set p hi .lock
    rw [hp] at hset
    exact Nat.add_right_cancel hset
  | broadcast => exact countP_woken hp _
  | _ => rfl

theorem State.Mutex.locked_of_worker {i : ℕ} {pc : WorkerPc} (hs : s.Mutex)
    (hi : s.workers[i]? = some pc) (hheld : pc.holds = true) : s.locked = true := by
  have hpos := List.countP_pos_iff.mpr ⟨pc, List.mem_of_getElem? hi, hheld⟩
  unfold State.Mutex at hs
  cases hlocked : s.locked with
  | true => rfl
  | false =>
    rw [hlocked, Bool.toNat_false] at hs
    omega

theorem State.Mutex.locked_of_call {k : ℕ} {pc : CallPc} (hs : s.Mutex)
    (hk : s.calls[k]? = some pc) (hheld : pc.holds = true) : s.locked = true := by
  have hpos := List.countP_pos_iff.mpr ⟨pc, List.mem_of_getElem? hk, hheld⟩
  unfold State.Mutex at hs
  cases hlocked : s.locked with
  | true => rfl
  | false =>
    rw [hlocked, Bool.toNat_false] at hs
    omega

theorem Step.mutex (h : Step s s') (hs : s.Mutex) : s'.Mutex := by
  have hsum := hs
  unfold State.Mutex at hsum ⊢
  cases h with
  | start =>
    rw [countP_concat]
    exact hsum
  | startFailed =>
    rw [countP_concat]
    exact hsum
  | created => exact hsum
  | enter _ hpc =>
    rw [countP_concat, hpc.holds]
    exact hsum
  | @worker i pc pc' s₁ hi hmove =>
    have hset := countP_set WorkerPc.holds hi pc'
    have hlocked := hmove.locked (hs.locked_of_worker hi)
    dsimp only [State.moveWorker]
    rw [hmove.workers, hmove.calls]
    omega
  | @call k pc pc' s₁ hk hmove =>
    have hset := countP_set CallPc.holds hk pc'
    have hlocked := hmove.locked (hs.locked_of_call hk)
    dsimp only [State.moveCall]
    rw [hmove.calls, hmove.countP_workers rfl]
    omega

end LinuxPrograms.Threadpool
