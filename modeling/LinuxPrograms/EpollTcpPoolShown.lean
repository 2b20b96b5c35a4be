import LinuxPrograms.EpollTcpPoolRefines

/-! What the two servers show is the same: whatever the server with a bounded queue does, the server
over the pool's code can do. To that end its threads take turns, each from one state in which nobody
has the mutex to the next. -/
namespace LinuxPrograms.EpollTcp
open Lib
open Threadpool (CallPc WorkerPc)

variable {listenfd handle : ℕ} {s s' : Pooled} {t t' : Server} {p p' : Threadpool.State}
variable {l : List Shown}

/-- The worker neither has the mutex nor is leaving. -/
def Resting (pc : WorkerPc) : Prop := pc = .lock ∨ pc = .waiting ∨ ∃ u, pc = .running u

/-- The pool is created, and nobody is in a call of it or between two operations on the mutex. -/
structure Calm (s : Pooled) : Prop where
  created : s.pool.creator = .returned
  free : s.pool.locked = false
  live : s.pool.freed = false
  loop : s.adding = none
  workers : ∀ pc ∈ s.pool.workers, Resting pc

/-- The server over the pool can go on to a calm state that the other server's state matches. -/
def Follows (listenfd handle : ℕ) (s : Pooled) (l : List Shown) (t : Server) : Prop :=
  ∃ s', Shows (nextPooled listenfd handle) (Pooled.seen listenfd) s l s' ∧ Held s' ∧ Calm s' ∧
    Refines listenfd handle s' t

theorem Follows.after {u : Pooled} {l' : List Shown}
    (h : Shows (nextPooled listenfd handle) (Pooled.seen listenfd) s l u)
    (h' : Follows listenfd handle u l' t) : Follows listenfd handle s (l ++ l') t := by
  obtain ⟨s', hshows, hend⟩ := h'
  exact ⟨s', h.trans hshows, hend⟩

/-- A move inside the pool that shows nothing. -/
theorem pool_silent {a : Threadpool.Act} (ha : inPool a = true)
    (hp : Threadpool.next s.pool a = some p) (hseen : s.seen listenfd (.pool a) = none) :
    Shows (nextPooled listenfd handle) (Pooled.seen listenfd) s [] { s with pool := p } := by
  refine .silent ?_ hseen
  simp only [nextPooled, if_pos ha, hp]
  rfl

/-! The threads are started. -/

theorem next_create (hlive : p.freed = false) (ok : Bool) :
    Threadpool.next p (.startThread ok) = Threadpool.startThread p ok := by
  rw [Threadpool.next, hlive, if_neg Bool.false_ne_true]

theorem create_follows {left : ℕ} (hs : Held s) (h : Refines listenfd handle s t)
    (hcreator : s.pool.creator = .starting left) (hfree : s.pool.locked = false)
    (hlive : s.pool.freed = false) (hloop : s.adding = none)
    (hworkers : ∀ pc ∈ s.pool.workers, pc = .lock) : Follows listenfd handle s [] t := by
  -- the induction is on the threads still to be started
  induction left generalizing s with
  | zero =>
    have hcreate : Threadpool.startThread s.pool true =
        some { s.pool with creator := .returned } := by
      rw [Threadpool.startThread, hcreator]
    have hnext := (next_create hlive true).trans hcreate
    refine ⟨_, pool_silent rfl hnext rfl, hs.pool rfl hnext, ⟨rfl, hfree, hlive, hloop, ?_⟩,
      h.create hs hcreate⟩
    exact fun pc hpc => .inl (hworkers pc hpc)
  | succ left ih =>
    have hcreate : Threadpool.startThread s.pool true = some { s.pool with
        pool := { s.pool.pool with
          threadCount := s.pool.pool.threadCount+1, started := s.pool.pool.started+1 }
        workers := s.pool.workers ++ [.lock]
        creator := .starting left } := by
      rw [Threadpool.startThread, hcreator]
      rfl
    have hnext := (next_create hlive true).trans hcreate
    apply Follows.after (pool_silent rfl hnext rfl)
    apply ih (hs.pool rfl hnext) (h.create hs hcreate) rfl hfree hlive hloop
    intro pc hpc
    rcases List.mem_append.mp hpc with hpc | hpc
    · exact hworkers pc hpc
    · exact List.mem_singleton.mp hpc

/-! The workers. -/

theorem next_thread {i : ℕ} {pc : WorkerPc} (hlive : s.pool.freed = false)
    (hi : s.pool.workers[i]? = some pc) (hp : Threadpool.threadpoolThread s.pool i pc = some p) :
    Threadpool.next s.pool (.worker i) = some p := by
  rw [Threadpool.next, hlive, if_neg Bool.false_ne_true]
  simp only [hi, Option.bind_some, hp]

/-- When fewer tasks run than there are threads, a worker has nothing in hand. -/
theorem Calm.exists_idle (hc : Calm s) (hs : Held s) (hserver : s.pool.held.length < threadCount) :
    ∃ i : ℕ, s.pool.workers[i]? = some .lock ∨ s.pool.workers[i]? = some .waiting := by
  have hhired := hs.sound.staffed.hired
  rw [hc.created] at hhired
  have hlength : s.pool.workers.length = threadCount := hhired
  rw [← hlength] at hserver
  obtain ⟨pc, hpc, hidle⟩ := List.length_filterMap_lt_length_iff_exists.mp hserver
  obtain ⟨i, hi⟩ := List.mem_iff_getElem?.mp hpc
  rcases hc.workers pc hpc with rfl | rfl | ⟨u, rfl⟩
  · exact ⟨i, .inl hi⟩
  · exact ⟨i, .inr hi⟩
  · cases hidle

/-- The pool is calm but for one worker. -/
structure CalmBut (i : ℕ) (s : Pooled) : Prop where
  created : s.pool.creator = .returned
  live : s.pool.freed = false
  loop : s.adding = none
  others : ∀ j pc, j ≠ i → s.pool.workers[j]? = some pc → Resting pc

theorem Calm.but (hc : Calm s) (i : ℕ) : CalmBut i s :=
  ⟨hc.created, hc.live, hc.loop, fun _ pc _ hj => hc.workers pc (List.mem_of_getElem? hj)⟩

/-- The worker moves on. -/
theorem CalmBut.moved {i : ℕ} {pc pc' : WorkerPc} (hc : CalmBut i s)
    (hmove : Threadpool.WorkerMove s.pool pc pc' p) (hlive : p.freed = false) :
    CalmBut i { s with pool := p.moveWorker i pc' } := by
  refine ⟨hmove.started.2.2.trans hc.created, hlive, hc.loop, ?_⟩
  intro j pc'' hj hw
  dsimp only [Threadpool.State.moveWorker] at hw
  rw [hmove.workers, List.getElem?_set_ne hj.symm] at hw
  exact hc.others j pc'' hj hw

/-- The worker comes to rest and leaves the mutex free. -/
theorem CalmBut.rests {i : ℕ} {pc' : WorkerPc} (hc : CalmBut i s) (hfree : s.pool.locked = false)
    (hi : s.pool.workers[i]? = some pc') (hrest : Resting pc') : Calm s := by
  refine ⟨hc.created, hfree, hc.live, hc.loop, fun pc hpc => ?_⟩
  obtain ⟨j, hj⟩ := List.mem_iff_getElem?.mp hpc
  by_cases hji : j = i
  · subst hji
    cases hi.symm.trans hj
    exact hrest
  · exact hc.others j pc hji hj

theorem moveWorker_get {i : ℕ} {pc : WorkerPc} (hi : i < p.workers.length) :
    (p.moveWorker i pc).workers[i]? = some pc :=
  List.getElem?_set_self hi

theorem grabbed_follows {i : ℕ} {task : Threadpool.Task} (hs : Held s) (hc : CalmBut i s)
    (h : Refines listenfd handle s t) (hi : s.pool.workers[i]? = some (.grabbed task)) :
    Follows listenfd handle s [] t := by
  have hlt := (List.getElem?_eq_some_iff.mp hi).1
  have hnext := next_thread hc.live hi rfl
  refine ⟨_, pool_silent rfl hnext rfl, hs.pool rfl hnext, ?_, h.moved hi .unlock rfl⟩
  exact (hc.moved .unlock hc.live).rests rfl (moveWorker_get hlt) (.inr (.inr ⟨task, rfl⟩))

/-- A worker that looks at the queue finds the task that the other server starts. -/
theorem check_follows {i : ℕ} {u : Task} {queue : List Task} (hs : Held s) (hc : CalmBut i s)
    (h : Refines listenfd handle s t) (hi : s.pool.workers[i]? = some .check)
    (hqueue : t.queue = u :: queue) :
    Follows listenfd handle s [] { t with queue := queue, running := t.running ++ [u] } := by
  obtain ⟨hshut, -⟩ := hs.kept fun hfailed => by cases hc.created.symm.trans hfailed
  have hwait : ¬s.pool.pool.Waits := by
    rintro ⟨hcount, -⟩
    have hqueued := congrArg List.length h.queue
    have hlength := hs.sound.queue_length.1
    rw [hqueue, List.map_cons, List.length_cons] at hqueued
    omega
  have hbreak : ¬s.pool.pool.Breaks := fun hbreak => hbreak.shut hshut
  obtain ⟨pending, haccounted⟩ := hs.sound.accounted
  obtain ⟨task, -, pool, -, hgrab, -⟩ := haccounted.holds.grab hwait hbreak
  have hmove := Threadpool.WorkerMove.grab hwait hbreak hgrab
  have hnext := next_thread (p := Threadpool.State.moveWorker
    { s.pool with pool := pool, taken := s.pool.taken ++ [task] } i (.grabbed task)) hc.live hi (by
      simp only [Threadpool.threadpoolThread, if_neg hwait, if_neg hbreak, hgrab]
      rfl)
  obtain ⟨u', queue', hqueue', -, h'⟩ := h.grabbed hs hi hmove
  cases hqueue.symm.trans hqueue'
  apply Follows.after (pool_silent rfl hnext rfl)
  exact grabbed_follows (hs.pool rfl hnext) (hc.moved hmove hc.live) h'
    (moveWorker_get (List.getElem?_eq_some_iff.mp hi).1)

theorem lock_follows {i : ℕ} {u : Task} {queue : List Task} (hs : Held s) (hc : Calm s)
    (h : Refines listenfd handle s t) (hi : s.pool.workers[i]? = some .lock)
    (hqueue : t.queue = u :: queue) :
    Follows listenfd handle s [] { t with queue := queue, running := t.running ++ [u] } := by
  have hmove := Threadpool.WorkerMove.lock hc.free
  have hnext := next_thread (p := Threadpool.State.moveWorker { s.pool with locked := true } i
    .check) hc.live hi (by
      rw [Threadpool.threadpoolThread, hc.free]
      rfl)
  apply Follows.after (pool_silent rfl hnext rfl)
  exact check_follows (hs.pool rfl hnext) ((hc.but i).moved hmove hc.live) (h.moved hi hmove rfl)
    (moveWorker_get (List.getElem?_eq_some_iff.mp hi).1) hqueue

/-- A worker without a task takes the oldest; one that sleeps wakes up by itself. -/
theorem start_follows {u : Task} {queue : List Task} (hs : Held s) (hc : Calm s)
    (h : Refines listenfd handle s t) (hqueue : t.queue = u :: queue)
    (hserver : t.running.length < threadCount) :
    Follows listenfd handle s [] { t with queue := queue, running := t.running ++ [u] } := by
  have hlength := h.running.length_eq
  rw [List.length_map] at hlength
  obtain ⟨i, hi | hi⟩ := hc.exists_idle hs (hlength ▸ hserver)
  · exact lock_follows hs hc h hi hqueue
  · have hnext : Threadpool.next s.pool (.spurious i) = some (s.pool.moveWorker i .lock) := by
      rw [Threadpool.next, hc.live, if_neg Bool.false_ne_true]
      exact if_pos hi
    have hlt := (List.getElem?_eq_some_iff.mp hi).1
    apply Follows.after (pool_silent rfl hnext rfl)
    apply lock_follows (hs.pool rfl hnext) ?_ (h.moved hi .wake rfl) (moveWorker_get hlt) hqueue
    exact ((hc.but i).moved .wake hc.live).rests hc.free (moveWorker_get hlt) (.inl rfl)

/-- What runs is in the hands of a worker. -/
theorem Calm.exists_worker (hc : Calm s) (h : Refines listenfd handle s t) {u : Task}
    (hu : u ∈ t.running) : ∃ i : ℕ, s.pool.workers[i]? = some (.running (u.job handle)) := by
  have hheld := h.running.mem_iff.mp (List.mem_map_of_mem hu)
  obtain ⟨pc, hpc, htask⟩ := List.mem_filterMap.mp hheld
  obtain ⟨i, hi⟩ := List.mem_iff_getElem?.mp hpc
  rcases hc.workers pc hpc with rfl | rfl | ⟨v, rfl⟩
  · cases htask
  · cases htask
  · cases htask
    exact ⟨i, hi⟩

theorem finish_follows {k : ℕ} {u : Task} (hs : Held s) (hc : Calm s)
    (h : Refines listenfd handle s t) (hk : t.running[k]? = some u) :
    Follows listenfd handle s [] { t with running := t.running.eraseIdx k } := by
  obtain ⟨i, hi⟩ := hc.exists_worker h (List.mem_of_getElem? hk)
  have hlt := (List.getElem?_eq_some_iff.mp hi).1
  have hnext := next_thread hc.live hi rfl
  refine ⟨_, pool_silent rfl hnext rfl, hs.pool rfl hnext, ?_, h.finished hi hk .finish⟩
  exact ((hc.but i).moved .finish hc.live).rests hc.free (moveWorker_get hlt) (.inl rfl)

/-! The call of `threadpool_add`. -/

/-- The server in its new call of the pool, which is at `pc`. -/
def Pooled.called (s : Pooled) (p : Threadpool.State) (pc : CallPc) : Pooled :=
  { s with
    adding := some s.pool.calls.length
    pool := { p with calls := s.pool.calls ++ [pc] } }

/-- What the call shows at `pc`. -/
def callShown (p : Threadpool.State) : CallPc → List Shown
  | .addTest u => [.offered u.argument p.pool.refuses.isNone]
  | _ => []

theorem called_shows (wake : Option ℕ) {pc pc' : CallPc} (hlive : p.freed = false)
    (h : Threadpool.callStep { p with calls := s.pool.calls ++ [pc] } s.pool.calls.length wake pc =
      some (Threadpool.State.moveCall { p' with calls := s.pool.calls ++ [pc] }
        s.pool.calls.length pc')) :
    Shows (nextPooled listenfd handle) (Pooled.seen listenfd) (s.called p pc) (callShown p pc)
      (s.called p' pc') := by
  have hset : (s.pool.calls ++ [pc]).set s.pool.calls.length pc' = s.pool.calls ++ [pc'] := by
    rw [List.set_append_right _ _ (Nat.le_refl _), Nat.sub_self]
    rfl
  have hpool : Threadpool.next (s.called p pc).pool (.call s.pool.calls.length wake) =
      some (s.called p' pc').pool := by
    rw [Threadpool.next_call (s := (s.called p pc).pool) hlive]
    dsimp only [Pooled.called]
    rw [List.getElem?_concat_length, Option.bind_some, h, Threadpool.State.moveCall, hset]
  have hnext : nextPooled listenfd handle (s.called p pc) (.pool (.call s.pool.calls.length wake)) =
      some (s.called p' pc') := by
    rw [nextPooled, hpool]
    rfl
  have hseen : ((s.called p pc).seen listenfd (.pool (.call s.pool.calls.length wake))).toList =
      callShown p pc := by
    simp only [Pooled.seen, Pooled.called, List.getElem?_concat_length]
    cases pc <;> rfl
  rw [← hseen]
  exact .single hnext

/-- The call is made for `events[i]`, and locks the mutex. -/
theorem enter_shows {i nfds : ℕ} (hhandle : handle ≠ 0)
    (hc : Calm s) (hmain : s.main = .scan i nfds) (hfd : (s.events i).fd ≠ listenfd)
    (hin : (s.events i).epollin = true) :
    Shows (nextPooled listenfd handle) (Pooled.seen listenfd) s []
      (s.called { s.pool with locked := true } (.addTest ⟨handle, i⟩)) := by
  have hlock : Shows (nextPooled listenfd handle) (Pooled.seen listenfd)
      (s.called s.pool (.addLock ⟨handle, i⟩)) []
      (s.called { s.pool with locked := true } (.addTest ⟨handle, i⟩)) := by
    apply called_shows none
    · exact hc.live
    · simp only [Threadpool.callStep, hc.free, Bool.false_eq_true, if_false]
      rfl
  refine Shows.trans (.silent (a := .next none) ?_ ?_) hlock
  · simp only [nextPooled, hmain, hc.loop, Pooled.scan, if_neg hfd, hin, if_true, Threadpool.next,
      hc.live, hc.created, Bool.false_eq_true, if_false, ne_eq, not_true, hhandle, Pooled.called,
      Option.map_some]
  · simp only [Pooled.seen, hmain, if_neg hfd]

/-- The call returns to the loop. -/
theorem return_shows {i nfds : ℕ} {err : ℤ} (hmain : s.main = .scan i nfds) :
    Shows (nextPooled listenfd handle) (Pooled.seen listenfd) (s.called p (.addReturned err)) []
      { s with
        main := .advance i nfds
        adding := none
        pool := { p with calls := s.pool.calls ++ [.addReturned err] } } := by
  refine .silent (a := .added) ?_ rfl
  simp only [nextPooled, Pooled.called, hmain, Option.bind_some, List.getElem?_concat_length]

/-- A call of `threadpool_add` that is refused. -/
theorem refused_shows {i nfds : ℕ} {err : ℤ} (hhandle : handle ≠ 0) (hc : Calm s)
    (hmain : s.main = .scan i nfds) (hfd : (s.events i).fd ≠ listenfd)
    (hin : (s.events i).epollin = true) (hrefuse : s.pool.pool.refuses = some err) :
    Shows (nextPooled listenfd handle) (Pooled.seen listenfd) s [.offered i false]
      { s with
        main := .advance i nfds
        adding := none
        pool := { s.pool with calls := s.pool.calls ++ [.addReturned err], locked := false } } := by
  have htest : Shows (nextPooled listenfd handle) (Pooled.seen listenfd)
      (s.called { s.pool with locked := true } (.addTest ⟨handle, i⟩))
      [.offered i s.pool.pool.refuses.isNone]
      (s.called { s.pool with locked := true } (.addUnlock err)) := by
    apply called_shows none
    · exact hc.live
    · simp only [Threadpool.callStep, hrefuse]
  rw [hrefuse] at htest
  have hunlock : Shows (nextPooled listenfd handle) (Pooled.seen listenfd)
      (s.called { s.pool with locked := true } (.addUnlock err)) []
      (s.called { s.pool with locked := false } (.addReturned err)) := by
    apply called_shows none
    · exact hc.live
    · rfl
  exact (enter_shows hhandle hc hmain hfd hin).trans
    (htest.trans (hunlock.trans (return_shows hmain)))

/-- A call of `threadpool_add` that is not refused, and wakes a worker if one sleeps. -/
theorem accepted_shows {i nfds : ℕ} {wake : Option ℕ} {pool : Threadpool.Pool}
    {workers : List WorkerPc} (hhandle : handle ≠ 0) (hc : Calm s) (hmain : s.main = .scan i nfds)
    (hfd : (s.events i).fd ≠ listenfd) (hin : (s.events i).epollin = true)
    (hrefuse : s.pool.pool.refuses = none) (hput : s.pool.pool.put ⟨handle, i⟩ = some pool)
    (hwake : Threadpool.signal s.pool.workers wake = some workers) :
    Shows (nextPooled listenfd handle) (Pooled.seen listenfd) s [.offered i true]
      { s with
        main := .advance i nfds
        adding := none
        pool := { s.pool with
          calls := s.pool.calls ++ [.addReturned 0]
          locked := false
          pool := pool
          accepted := s.pool.accepted ++ [(s.pool.calls.length, ⟨handle, i⟩)]
          workers := workers } } := by
  have htest : Shows (nextPooled listenfd handle) (Pooled.seen listenfd)
      (s.called { s.pool with locked := true } (.addTest ⟨handle, i⟩))
      [.offered i s.pool.pool.refuses.isNone]
      (s.called { s.pool with
        locked := true
        pool := pool
        accepted := s.pool.accepted ++ [(s.pool.calls.length, ⟨handle, i⟩)] } .addSignal) := by
    apply called_shows none
    · exact hc.live
    · simp only [Threadpool.callStep, hrefuse, hput]
      rfl
  rw [hrefuse] at htest
  have hsignal : Shows (nextPooled listenfd handle) (Pooled.seen listenfd)
      (s.called { s.pool with
        locked := true
        pool := pool
        accepted := s.pool.accepted ++ [(s.pool.calls.length, ⟨handle, i⟩)] } .addSignal) []
      (s.called { s.pool with
        locked := true
        pool := pool
        accepted := s.pool.accepted ++ [(s.pool.calls.length, ⟨handle, i⟩)]
        workers := workers } (.addUnlock 0)) := by
    apply called_shows wake
    · exact hc.live
    · simp only [Threadpool.callStep, hwake]
      rfl
  have hunlock : Shows (nextPooled listenfd handle) (Pooled.seen listenfd)
      (s.called { s.pool with
        locked := true
        pool := pool
        accepted := s.pool.accepted ++ [(s.pool.calls.length, ⟨handle, i⟩)]
        workers := workers } (.addUnlock 0)) []
      (s.called { s.pool with
        locked := false
        pool := pool
        accepted := s.pool.accepted ++ [(s.pool.calls.length, ⟨handle, i⟩)]
        workers := workers } (.addReturned 0)) := by
    apply called_shows none
    · exact hc.live
    · rfl
  exact (enter_shows hhandle hc hmain hfd hin).trans
    (htest.trans (hsignal.trans (hunlock.trans (return_shows hmain))))

theorem shows_held (hhandle : handle ≠ 0) (hs : Held s)
    (h : Shows (nextPooled listenfd handle) (Pooled.seen listenfd) s l s') : Held s' := by
  obtain ⟨tr, hrun, -⟩ := h
  exact Reachable.invariant (fun _ _ _ hs hstep => nextPooled_held hhandle hs hstep) ⟨tr, hrun⟩ hs

theorem signal_workers {wake : Option ℕ} {workers workers' : List WorkerPc}
    (h : Threadpool.signal workers wake = some workers') (hrest : ∀ pc ∈ workers, Resting pc) :
    (∀ pc ∈ workers', Resting pc) ∧
      (workers'.filterMap WorkerPc.task).Perm (workers.filterMap WorkerPc.task) := by
  unfold Threadpool.signal at h
  split at h <;> split at h <;> cases h
  · exact ⟨hrest, .refl _⟩
  · next hi => exact ⟨forall_mem_set hrest (.inl rfl), filterMap_set_of_eq hi rfl⟩

/-- The loop body for an event that calls for a task. -/
theorem offer_follows {i nfds : ℕ} (hhandle : handle ≠ 0) (hs : Held s) (hc : Calm s)
    (h : Refines listenfd handle s t) (hmain : t.main = .scan i nfds)
    (hfd : (t.events i).fd ≠ listenfd) (hin : (t.events i).epollin = true) :
    Follows listenfd handle s [.offered i (decide (t.queue.length ≠ queueSize))] { t with
      queue := if t.queue.length = queueSize then t.queue
        else t.queue ++ [⟨i, (t.events i).fd, t.batches.length⟩]
      main := .advance i nfds } := by
  rw [h.atMain hc.loop] at hmain
  have hfd' := hfd
  rw [h.events] at hfd' hin
  by_cases hfull : t.queue.length = queueSize
  · obtain ⟨err, hrefuse⟩ :=
      Option.ne_none_iff_exists'.mp ((h.full_iff hs hc.created).mp hfull)
    have hshows := refused_shows hhandle hc hmain hfd' hin hrefuse
    rw [if_pos hfull, decide_eq_false (not_not.mpr hfull)]
    refine ⟨_, hshows, shows_held hhandle hs hshows,
      ⟨hc.created, rfl, hc.live, rfl, hc.workers⟩, ?_⟩
    exact ⟨h.events, h.registered, h.list, rfl, h.queue, h.running⟩
  · have hrefuse : s.pool.pool.refuses = none := by
      by_contra hrefuse
      exact hfull ((h.full_iff hs hc.created).mpr hrefuse)
    obtain ⟨pending, haccounted⟩ := hs.sound.accounted
    obtain ⟨pool, hput, -⟩ := haccounted.holds.put hrefuse ⟨handle, i⟩
    obtain ⟨wake, hwake⟩ := Threadpool.exists_signal s.pool.workers
    obtain ⟨workers, hworkers⟩ := Option.ne_none_iff_exists'.mp hwake
    obtain ⟨hrest, hheld⟩ := signal_workers hworkers hc.workers
    have hshows := accepted_shows hhandle hc hmain hfd' hin hrefuse hput hworkers
    rw [if_neg hfull, decide_eq_true hfull]
    refine ⟨_, hshows, shows_held hhandle hs hshows, ⟨hc.created, rfl, hc.live, rfl, hrest⟩, ?_⟩
    refine ⟨h.events, h.registered, h.list, rfl, ?_, h.running.trans hheld.symm⟩
    rw [List.map_append, h.queue]
    exact Eq.symm (hs.sound.put_jobs rfl rfl)

/-! The whole server. -/

/-- A step of the loop that leaves the pool alone. -/
theorem Follows.single {a : PooledAct} (hhandle : handle ≠ 0) (hs : Held s) (hc : Calm s)
    (h : Refines listenfd handle s' t) (hpool : s'.pool = s.pool) (hloop : s'.adding = s.adding)
    (hstep : nextPooled listenfd handle s a = some s') (hseen : (s.seen listenfd a).toList = l) :
    Follows listenfd handle s l t := by
  refine ⟨s', hseen ▸ .single hstep, nextPooled_held hhandle hs hstep, ?_, h⟩
  exact ⟨hpool ▸ hc.created, hpool ▸ hc.free, hpool ▸ hc.live, hloop.trans hc.loop,
    hpool ▸ hc.workers⟩

theorem next_follows {i nfds : ℕ} {conn : Option Clientmember} (hhandle : handle ≠ 0) (hs : Held s)
    (hc : Calm s) (h : Refines listenfd handle s t) (hmain : t.main = .scan i nfds)
    (hstep : scanStep listenfd t i nfds conn = some t') :
    Follows listenfd handle s (t.seen listenfd (.next conn)).toList t' := by
  have hsmain := (h.atMain hc.loop).symm.trans hmain
  have hafter (u : Pooled) (hu : u.adding = none) (hadvance : u.main = .advance i nfds) :
      u.AtMain listenfd handle (.advance i nfds) := by
    rw [Pooled.AtMain, hu, hadvance]
  obtain ⟨hfd, member, list, rfl, hnew, hadd, rfl⟩ | ⟨hfd, hin, rfl⟩ | ⟨hfd, hin, rfl⟩ :=
    scanStep_cases hstep
  · have hfd' := hfd
    rw [h.events] at hfd'
    rw [h.registered] at hnew
    rw [h.list] at hadd
    have hrefines : Refines listenfd handle
        { s with list := list, registered := member.fd :: s.registered, main := .advance i nfds }
        { t with list := list, registered := member.fd :: t.registered, main := .advance i nfds } :=
      ⟨h.events, congrArg (member.fd :: ·) h.registered, rfl, hafter _ hc.loop rfl, h.queue,
        h.running⟩
    apply Follows.single (a := .next (some member)) hhandle hs hc hrefines rfl rfl
    · simp only [nextPooled, hsmain, hc.loop, Pooled.scan, if_pos hfd', if_neg hnew, hadd,
        Option.map_some]
    · simp only [Pooled.seen, Server.seen, hsmain, hmain, if_pos hfd', if_pos hfd]
  · have hseen : (t.seen listenfd (.next conn)).toList =
        [.offered i (decide (t.queue.length ≠ queueSize))] := by
      simp only [Server.seen, hmain, if_neg hfd, hin, if_true]
      rfl
    rw [hseen]
    exact offer_follows hhandle hs hc h hmain hfd hin
  · have hfd' := hfd
    have hin' := hin
    rw [h.events] at hfd' hin'
    have hrefines : Refines listenfd handle { s with main := .advance i nfds }
        { t with main := .advance i nfds } :=
      ⟨h.events, h.registered, h.list, hafter _ hc.loop rfl, h.queue, h.running⟩
    apply Follows.single (a := .next conn) hhandle hs hc hrefines rfl rfl
    · simp only [nextPooled, hsmain, hc.loop, Pooled.scan, if_neg hfd', hin', Bool.false_eq_true,
        if_false]
    · simp only [Pooled.seen, Server.seen, hsmain, hmain, if_neg hfd', if_neg hfd, hin,
        Bool.false_eq_true, if_false]

theorem nextServer_follows {a : Act} (hhandle : handle ≠ 0) (hs : Held s) (hc : Calm s)
    (h : Refines listenfd handle s t) (hstep : nextServer listenfd t a = some t') :
    Follows listenfd handle s (t.seen listenfd a).toList t' := by
  cases a with
  | epollWait batch =>
    simp only [nextServer] at hstep
    split at hstep
    · next hmain =>
      split at hstep <;> cases hstep
      next hguard =>
        have hsmain := (h.atMain hc.loop).symm.trans hmain
        have hrefines : Refines listenfd handle
            { s with
              events := writeBlock s.events batch
              main := if batch = [] then .wait else .scan 0 batch.length }
            { t with
              events := writeBlock t.events batch
              main := if batch = [] then .wait else .scan 0 batch.length
              batches := t.batches ++ [batch] } := by
          refine ⟨congrArg (writeBlock · batch) h.events, h.registered, h.list, ?_, h.queue,
            h.running⟩
          rw [Pooled.AtMain, hc.loop]
        apply Follows.single (a := .epollWait batch) hhandle hs hc hrefines rfl rfl
        · simp only [nextPooled, hsmain, hc.loop]
          exact if_pos ⟨hc.created, hguard.1, h.registered ▸ hguard.2⟩
        · rfl
    · cases hstep
  | next conn =>
    simp only [nextServer] at hstep
    split at hstep
    · next hmain => exact next_follows hhandle hs hc h hmain hstep
    · cases hstep
  | start =>
    simp only [nextServer] at hstep
    split at hstep
    · cases hstep
    next hqueue =>
      split at hstep <;> cases hstep
      next hserver => exact start_follows hs hc h hqueue hserver
  | io k n =>
    simp only [nextServer] at hstep
    split at hstep
    · cases hstep
    next u hk =>
      cases hstep
      obtain ⟨w, hw⟩ := hc.exists_worker h (List.mem_of_getElem? hk)
      have hrefines := h.transfer (t.events u.arg).fd n
        (t.derefs ++ [(u.client, (t.events u.arg).fd)])
      apply Follows.single (a := .io w n) hhandle hs hc hrefines rfl rfl
      · simp only [nextPooled, hw, h.events, Task.job]
      · simp only [Pooled.seen, Server.seen, hw, hk, Option.map_some, h.events, Task.job]
  | broadcast k i n =>
    simp only [nextServer] at hstep
    split at hstep <;> cases hstep
    next hguard =>
      obtain ⟨w, hw⟩ := hc.exists_worker h (List.getElem_mem hguard.1)
      rw [h.list] at hguard
      have hrefines := h.transfer (t.list.clilist i).fd n t.derefs
      apply Follows.single (a := .broadcast w i n) hhandle hs hc hrefines rfl rfl
      · simp only [nextPooled, hw, if_pos hguard.2, h.list]
      · simp only [Pooled.seen, Server.seen, h.list]
  | finish k =>
    simp only [nextServer] at hstep
    split at hstep <;> cases hstep
    next hk => exact finish_follows hs hc h (List.getElem?_eq_getElem hk)

theorem shows_pooled (hhandle : handle ≠ 0) {garbage : ℕ → EpollEvent}
    {tasks : ℕ → Threadpool.Task}
    (h : Shows (nextServer listenfd) (Server.seen listenfd) (setup listenfd garbage) l t) :
    ∃ s, Shows (nextPooled listenfd handle) (Pooled.seen listenfd) (.setup listenfd garbage tasks)
      l s := by
  -- the threads are started first
  obtain ⟨s₀, hcreate, hstart⟩ := create_follows (setup_held listenfd garbage tasks)
    (setup_refines listenfd handle garbage tasks) rfl rfl rfl rfl
    fun pc hpc => (List.not_mem_nil hpc).elim
  have hend : ∃ s, Shows (nextPooled listenfd handle) (Pooled.seen listenfd) s₀ l s ∧
      Held s ∧ Calm s ∧ Refines listenfd handle s t := by
    refine h.simulated (R := fun t s => Held s ∧ Calm s ∧ Refines listenfd handle s t) ?_ hstart
    intro t a t' s hts hstep
    exact nextServer_follows hhandle hts.1 hts.2.1 hts.2.2 hstep
  obtain ⟨s, hshows, -⟩ := hend
  exact ⟨s, hcreate.trans hshows⟩

/-- The calls to the kernel that the server makes over the code of its thread pool, and the tasks
that find room in it, are those of the server whose pool is a queue of 256 places and 32 threads. -/
theorem shown_over_pool_iff (hhandle : handle ≠ 0) (garbage : ℕ → EpollEvent)
    (tasks : ℕ → Threadpool.Task) (l : List Shown) :
    (∃ s, Shows (nextPooled listenfd handle) (Pooled.seen listenfd)
      (.setup listenfd garbage tasks) l s) ↔
    ∃ t, Shows (nextServer listenfd) (Server.seen listenfd) (setup listenfd garbage) l t := by
  constructor
  · rintro ⟨s, h⟩
    obtain ⟨t, hshows, -⟩ := shows_server hhandle h
    exact ⟨t, hshows⟩
  · rintro ⟨t, h⟩
    exact shows_pooled hhandle h

/-- The server over the pool can run the task for client 5 on client 6, too. -/
theorem shown_over_pool_iff_late :
    ∃ s, Shows (nextPooled 3 1) (Pooled.seen 3)
      (.setup 3 (fun _ => ⟨0, false, false⟩) fun _ => ⟨0, 0⟩)
      [.reported [⟨3, true, false⟩], .accepted ⟨5, "10.0.0.1"⟩, .reported [⟨3, true, false⟩],
        .accepted ⟨6, "10.0.0.2"⟩, .reported [⟨5, true, false⟩], .offered 0 true,
        .reported [⟨6, true, false⟩], .transferred 6 (.count 4)] s :=
  (shown_over_pool_iff (by decide) _ _ _).mpr
    ⟨lateServer, _, .of_exec (Option.some_get _).symm, rfl⟩

end LinuxPrograms.EpollTcp
