import LinuxPrograms.EpollTcpTasks
import LinuxPrograms.ThreadpoolJobs

/-! `start_server` over the code of the thread pool it creates. The workers move between two
operations of `threadpool_add` on the mutex, and a worker runs `handle` between two of its own. -/
namespace LinuxPrograms.EpollTcp
open Lib
open Threadpool (CallPc CallMove WorkerPc WorkerMove Sound)

/-- The server with its pool. The argument of a task is given by its index in `events[]`. -/
structure Pooled where
  events : ℕ → EpollEvent
  main : MainPc
  adding : Option ℕ  -- the call of `threadpool_add` the loop body is in
  registered : List ℕ
  list : Clilist
  pool : Threadpool.State

inductive PooledAct
  | pool (a : Threadpool.Act)
  | epollWait (batch : List EpollEvent)
  | next (conn : Option Clientmember)
  | added                      -- `threadpool_add` returns to the loop
  | io (w : ℕ) (n : IoRet)
  | broadcast (w i : ℕ) (n : IoRet)

/-- `threadpool_create(THREAD, QUEUE, 0)` has yet to start the threads. -/
def Pooled.setup (listenfd : ℕ) (garbage : ℕ → EpollEvent) (tasks : ℕ → Threadpool.Task) :
    Pooled where
  events := garbage
  main := .wait
  adding := none
  registered := [listenfd]
  list := .zero
  pool := Threadpool.setup threadCount queueSize tasks

example (tasks : ℕ → Threadpool.Task) : Threadpool.threadpoolCreate threadCount queueSize tasks =
    some (Pooled.setup 3 (fun _ => ⟨0, false, false⟩) tasks).pool := rfl

/-- `op_read` or `op_write` on descriptor `fd`. -/
def Pooled.transfer (s : Pooled) (fd : ℕ) (n : IoRet) : Pooled :=
  { s with
    list := (opIo s.list fd n).2
    registered := if n.Fails then s.registered.filter (· ≠ fd) else s.registered }

/-- The loop body for `events[i]`, up to the call of `threadpool_add`; `handle` is the address of
the function. -/
def Pooled.scan (listenfd handle : ℕ) (s : Pooled) (i nfds : ℕ) (conn : Option Clientmember) :
    Option Pooled :=
  let ev := s.events i
  if ev.fd = listenfd then
    match conn with
    | none => none  -- exit(1)
    | some member =>
      if member.fd ∈ s.registered then none
      else
        (addClilist s.list member).map fun list => { s with
          list := list
          registered := member.fd :: s.registered
          main := .advance i nfds }
  else if ev.epollin then
    (Threadpool.next s.pool (.add ⟨handle, i⟩)).map fun pool =>
      { s with pool := pool, adding := some s.pool.calls.length }
  else some { s with main := .advance i nfds }

/-- A move of a worker, or of the main thread in `threadpool_create` or `threadpool_add`. -/
def inPool : Threadpool.Act → Bool
  | .add _ | .destroy _ => false
  | _ => true

/-- One step of the main thread or of a pool thread. The loop begins when the pool is created; a
worker that runs a task does in `handle` what it does in `nextServer`. -/
def nextPooled (listenfd handle : ℕ) (s : Pooled) : PooledAct → Option Pooled
  | .pool a =>
    if inPool a then (Threadpool.next s.pool a).map fun pool => { s with pool := pool } else none
  | .epollWait batch =>
    match s.main, s.adding with
    | .wait, none =>
      if s.pool.creator = .returned ∧ batch.length ≤ maxConnect ∧
          ∀ ev ∈ batch, ev.fd ∈ s.registered then
        some { s with
          events := writeBlock s.events batch
          main := if batch = [] then .wait else .scan 0 batch.length }
      else none
    | _, _ => none
  | .next conn =>
    match s.main, s.adding with
    | .scan i nfds, none => s.scan listenfd handle i nfds conn
    | _, _ => none
  | .added =>
    match s.main, s.adding.bind (s.pool.calls[·]?) with
    | .scan i nfds, some (.addReturned _) =>
      some { s with main := .advance i nfds, adding := none }
    | _, _ => none
  | .io w n =>
    match s.pool.workers[w]? with
    | some (.running t) => some (s.transfer (s.events t.argument).fd n)
    | _ => none
  | .broadcast w i n =>
    match s.pool.workers[w]? with
    | some (.running _) =>
      if (i : ℤ) < s.list.tailindex then some (s.transfer (s.list.clilist i).fd n) else none
    | _ => none

/-! What a server shows: its calls to the kernel, and which tasks found room. -/

inductive Shown
  | reported (batch : List EpollEvent)
  | accepted (member : Clientmember)
  | offered (i : ℕ) (room : Bool)
  | transferred (fd : ℕ) (n : IoRet)

def Server.seen (listenfd : ℕ) (s : Server) : Act → Option Shown
  | .epollWait batch => some (.reported batch)
  | .next conn =>
    match s.main with
    | .wait => none
    | .scan i _ =>
      if (s.events i).fd = listenfd then conn.map .accepted
      else if (s.events i).epollin then some (.offered i (s.queue.length ≠ queueSize)) else none
  | .io k n => (s.running[k]?).map fun t => .transferred (s.events t.arg).fd n
  | .broadcast _ i n => some (.transferred (s.list.clilist i).fd n)
  | .start | .finish _ => none

/-- The pool has room when `threadpool_add` does not refuse the task. -/
def Pooled.seen (listenfd : ℕ) (s : Pooled) : PooledAct → Option Shown
  | .pool (.call k _) =>
    match s.pool.calls[k]? with
    | some (.addTest t) => some (.offered t.argument s.pool.pool.refuses.isNone)
    | _ => none
  | .pool _ | .added => none
  | .epollWait batch => some (.reported batch)
  | .next conn =>
    match s.main with
    | .wait => none
    | .scan i _ => if (s.events i).fd = listenfd then conn.map .accepted else none
  | .io w n =>
    match s.pool.workers[w]? with
    | some (.running t) => some (.transferred (s.events t.argument).fd n)
    | _ => none
  | .broadcast _ i n => some (.transferred (s.list.clilist i).fd n)

/-! What holds of the pool while the server has it. -/

/-- The call has yet to offer its task. -/
def Offers (t : Threadpool.Task) (pc : CallPc) : Prop := pc = .addLock t ∨ pc = .addTest t

/-- Only the loop offers tasks, one at a time, and nobody shuts down a pool that was created. -/
structure Held (s : Pooled) : Prop where
  sound : Sound threadCount queueSize s.pool
  offers : ∀ k pc t, s.pool.calls[k]? = some pc → Offers t pc → s.adding = some k
  created : s.adding ≠ none → s.pool.creator = .returned
  kept : s.pool.creator ≠ .failed →
    s.pool.pool.shutdown = .none ∧ ∀ pc ∈ s.pool.calls, pc.asks = false

theorem setup_held (listenfd : ℕ) (garbage : ℕ → EpollEvent) (tasks : ℕ → Threadpool.Task) :
    Held (.setup listenfd garbage tasks) where
  sound := Threadpool.setup_sound (by decide)
  offers := by
    intro k pc t hk
    cases hk
  created := fun h => (h rfl).elim
  kept := fun _ => ⟨rfl, fun pc h => (List.not_mem_nil h).elim⟩

/-- A move inside the pool, of its creator, of a worker or of a call. -/
inductive PoolMove (s : Threadpool.State) : Threadpool.Act → Threadpool.State → Prop
  | create {ok : Bool} {s' : Threadpool.State} (h : Threadpool.startThread s ok = some s') :
      PoolMove s (.startThread ok) s'
  | worker {i : ℕ} {pc pc' : WorkerPc} {s₁ : Threadpool.State} (hi : s.workers[i]? = some pc)
      (hmove : WorkerMove s pc pc' s₁) : PoolMove s (.worker i) (s₁.moveWorker i pc')
  | spurious {i : ℕ} (hi : s.workers[i]? = some .waiting) :
      PoolMove s (.spurious i) (s.moveWorker i .lock)
  | call {k : ℕ} {wake : Option ℕ} {pc pc' : CallPc} {s₁ : Threadpool.State}
      (hk : s.calls[k]? = some pc) (hmove : CallMove s k pc pc' s₁) :
      PoolMove s (.call k wake) (s₁.moveCall k pc')

theorem next_poolMove {p p' : Threadpool.State} {a : Threadpool.Act} (ha : inPool a = true)
    (h : Threadpool.next p a = some p') : PoolMove p a p' := by
  unfold Threadpool.next at h
  split at h
  · cases h
  cases a with
  | startThread ok => exact .create h
  | worker i =>
    obtain ⟨pc, hi, h⟩ := Option.bind_eq_some_iff.mp h
    obtain ⟨pc', s₁, hmove, rfl⟩ := Threadpool.threadpoolThread_move h
    exact .worker hi hmove
  | spurious i =>
    dsimp only at h
    split at h <;> cases h
    next hi => exact .spurious hi
  | call k wake =>
    obtain ⟨pc, hk, h⟩ := Option.bind_eq_some_iff.mp h
    obtain ⟨pc', s₁, hmove, rfl⟩ := Threadpool.callStep_move h
    exact .call hk hmove
  | add t => cases ha
  | destroy flags => cases ha

variable {listenfd handle : ℕ} {s s' : Pooled} {t : Server} {p p₁ : Threadpool.State}

/-- The creator takes no task and makes no offer. -/
theorem create_pool {ok : Bool} (h : Threadpool.startThread p ok = some p₁) :
    p.creator ≠ .returned ∧ p.creator ≠ .failed ∧ p₁.jobs = p.jobs ∧
      p₁.pool.shutdown = p.pool.shutdown ∧
      (p₁.calls = p.calls ∨ p₁.creator = .failed ∧ p₁.calls = p.calls ++ [.destroyLock 0]) := by
  have hstarting {left : ℕ} : Threadpool.Creator.starting left ≠ .returned ∧
      Threadpool.Creator.starting left ≠ .failed := by
    constructor <;> intro h <;> cases h
  unfold Threadpool.startThread at h
  split at h
  · next left hc =>
    rw [hc]
    split at h <;> cases h
    · refine ⟨hstarting.1, hstarting.2, ?_, rfl, .inl rfl⟩
      -- a worker starts with nothing in hand
      refine congrArg (Threadpool.Jobs.mk _) ?_
      rw [Threadpool.State.held, List.filterMap_append]
      exact congrArg _ (List.append_nil _)
    · exact ⟨hstarting.1, hstarting.2, rfl, rfl, .inr ⟨rfl, rfl⟩⟩
  · next hc =>
    rw [hc]
    cases h
    exact ⟨hstarting.1, hstarting.2, rfl, rfl, .inl rfl⟩
  · cases h

theorem offers_of_move {k : ℕ} {pc pc' : CallPc} {u : Threadpool.Task}
    (h : CallMove p k pc pc' p₁) (hu : Offers u pc') : Offers u pc := by
  cases h with
  | addLock =>
    rcases hu with hu | hu <;> cases hu
    exact .inl rfl
  | _ => rcases hu with hu | hu <;> cases hu

/-- Only a call of `threadpool_destroy` shuts the pool down. -/
theorem kept_of_move {k : ℕ} {pc pc' : CallPc} (h : CallMove p k pc pc' p₁)
    (hpc : pc.asks = false) : pc'.asks = false ∧ p₁.pool.shutdown = p.pool.shutdown := by
  cases h with
  | put _ hput =>
    rw [Threadpool.put_eq hput]
    exact ⟨rfl, rfl⟩
  | destroyLock => cases hpc
  | shut => cases hpc
  | _ => exact ⟨rfl, rfl⟩

theorem Held.pool {a : Threadpool.Act} (hs : Held s) (ha : inPool a = true)
    (h : Threadpool.next s.pool a = some p) : Held { s with pool := p } := by
  obtain ⟨hfreed, hstep⟩ := Threadpool.next_step h
  have hsound := hs.sound.step hfreed hstep
  cases next_poolMove ha h with
  | create hcreate =>
    obtain ⟨hreturned, hfailed, -, hshut, hcalls⟩ := create_pool hcreate
    refine ⟨hsound, ?_, fun hadding => (hreturned (hs.created hadding)).elim, ?_⟩
    · intro k pc u hk hu
      rcases hcalls with hcalls | ⟨-, hcalls⟩
      · exact hs.offers k pc u (hcalls ▸ hk) hu
      · dsimp only at hk
        rw [hcalls] at hk
        by_cases hlt : k < s.pool.calls.length
        · rw [List.getElem?_append_left hlt] at hk
          exact hs.offers k pc u hk hu
        · rw [List.getElem?_append_right (Nat.not_lt.mp hlt)] at hk
          cases List.mem_singleton.mp (List.mem_of_getElem? hk)
          rcases hu with hu | hu <;> cases hu
    · intro hnot
      rcases hcalls with hcalls | ⟨hfailed', -⟩
      · dsimp only
        rw [hshut, hcalls]
        exact hs.kept hfailed
      · exact (hnot hfailed').elim
  | worker hi hmove =>
    refine ⟨hsound, ?_, ?_, ?_⟩
    · dsimp only [Threadpool.State.moveWorker]
      rw [hmove.calls]
      exact hs.offers
    · dsimp only [Threadpool.State.moveWorker]
      rw [hmove.started.2.2]
      exact hs.created
    · dsimp only [Threadpool.State.moveWorker]
      rw [hmove.started.2.2, hmove.shutdown, hmove.calls]
      exact hs.kept
  | spurious hi => exact ⟨hsound, hs.offers, hs.created, hs.kept⟩
  | @call k _ pc pc' s₁ hk hmove =>
    have hcreator := hmove.started.2.2.1
    refine ⟨hsound, ?_, ?_, ?_⟩
    · intro j pc'' u hj hu
      dsimp only [Threadpool.State.moveCall] at hj
      rw [hmove.calls] at hj
      rcases getElem?_set_cases hj with ⟨rfl, rfl⟩ | ⟨-, hj⟩
      · exact hs.offers _ _ u hk (offers_of_move hmove hu)
      · exact hs.offers j pc'' u hj hu
    · dsimp only [Threadpool.State.moveCall]
      rw [hcreator]
      exact hs.created
    · dsimp only [Threadpool.State.moveCall]
      rw [hcreator]
      intro hnot
      obtain ⟨hshut, hasks⟩ := hs.kept hnot
      obtain ⟨hpc', hshut'⟩ := kept_of_move hmove (hasks _ (List.mem_of_getElem? hk))
      rw [hshut', hmove.calls]
      exact ⟨hshut, forall_mem_set hasks hpc'⟩

/-- The loop body accepts a client, enters `threadpool_add`, or has nothing to do. -/
theorem scan_cases {i nfds : ℕ} {conn : Option Clientmember}
    (h : s.scan listenfd handle i nfds conn = some s') :
    ((s.events i).fd = listenfd ∧ ∃ member list, conn = some member ∧
      member.fd ∉ s.registered ∧ addClilist s.list member = some list ∧
      s' = { s with
        list := list, registered := member.fd :: s.registered, main := .advance i nfds }) ∨
    ((s.events i).fd ≠ listenfd ∧ (s.events i).epollin = true ∧
      ∃ pool, Threadpool.next s.pool (.add ⟨handle, i⟩) = some pool ∧
        s' = { s with pool := pool, adding := some s.pool.calls.length }) ∨
    ((s.events i).fd ≠ listenfd ∧ (s.events i).epollin = false ∧
      s' = { s with main := .advance i nfds }) := by
  unfold Pooled.scan at h
  dsimp only at h
  split at h
  · next hlisten =>
    split at h
    · cases h
    next member =>
      split at h
      · cases h
      next hnew =>
        obtain ⟨list, hadd, rfl⟩ := Option.map_eq_some_iff.mp h
        exact .inl ⟨hlisten, member, list, rfl, hnew, hadd, rfl⟩
  · next hclient =>
    split at h
    · next hin =>
      obtain ⟨pool, hadd, rfl⟩ := Option.map_eq_some_iff.mp h
      exact .inr (.inl ⟨hclient, hin, pool, hadd, rfl⟩)
    · next hin =>
      cases h
      exact .inr (.inr ⟨hclient, Bool.eq_false_iff.mpr hin, rfl⟩)

/-- A new call of `threadpool_add` with a function. -/
theorem add_enters (hhandle : handle ≠ 0) {i : ℕ}
    (h : Threadpool.next p (.add ⟨handle, i⟩) = some p₁) :
    p.creator = .returned ∧ p₁ = { p with calls := p.calls ++ [.addLock ⟨handle, i⟩] } := by
  unfold Threadpool.next at h
  split at h
  · cases h
  dsimp only at h
  rw [if_neg hhandle] at h
  split at h <;> cases h
  next hcreated => exact ⟨not_not.mp hcreated, rfl⟩

/-- The call that begins is the only one to offer a task. -/
theorem Held.enter (hs : Held s) (hhandle : handle ≠ 0) (hadding : s.adding = none) {i : ℕ}
    (h : Threadpool.next s.pool (.add ⟨handle, i⟩) = some p) :
    Held { s with pool := p, adding := some s.pool.calls.length } := by
  obtain ⟨hfreed, hstep⟩ := Threadpool.next_step h
  obtain ⟨hcreated, hp⟩ := add_enters hhandle h
  refine ⟨hs.sound.step hfreed hstep, ?_, ?_, ?_⟩ <;> dsimp only <;> rw [hp]
  · intro k pc u hk hu
    by_cases hlt : k < s.pool.calls.length
    · dsimp only at hk
      rw [List.getElem?_append_left hlt] at hk
      have hold := hs.offers k pc u hk hu
      rw [hadding] at hold
      cases hold
    · have hle := (List.getElem?_eq_some_iff.mp hk).1
      rw [List.length_append, List.length_singleton] at hle
      rw [show k = s.pool.calls.length by omega]
  · exact fun _ => hcreated
  · intro hnot
    obtain ⟨hshut, hasks⟩ := hs.kept hnot
    refine ⟨hshut, fun pc hpc => ?_⟩
    rcases List.mem_append.mp hpc with hpc | hpc
    · exact hasks pc hpc
    · cases List.mem_singleton.mp hpc
      rfl

/-- Every step keeps it. -/
theorem nextPooled_held (hhandle : handle ≠ 0) {a : PooledAct} (hs : Held s)
    (hstep : nextPooled listenfd handle s a = some s') : Held s' := by
  -- a step that moves neither the pool nor the call of the loop
  have hkeep (hpool : s'.pool = s.pool) (hadding : s'.adding = s.adding) : Held s' := by
    refine ⟨hpool ▸ hs.sound, ?_, ?_, ?_⟩ <;> rw [hpool]
    · rw [hadding]
      exact hs.offers
    · rw [hadding]
      exact hs.created
    · exact hs.kept
  cases a with
  | pool a =>
    simp only [nextPooled] at hstep
    split at hstep
    · next ha =>
      obtain ⟨p, hp, rfl⟩ := Option.map_eq_some_iff.mp hstep
      exact hs.pool ha hp
    · cases hstep
  | epollWait batch =>
    simp only [nextPooled] at hstep
    split at hstep
    · split at hstep <;> cases hstep
      exact hkeep rfl rfl
    · cases hstep
  | next conn =>
    simp only [nextPooled] at hstep
    split at hstep
    · next hmain hadding =>
      obtain ⟨-, member, list, -, -, -, rfl⟩ | ⟨-, -, pool, hadd, rfl⟩ | ⟨-, -, rfl⟩ :=
        scan_cases hstep
      · exact hkeep rfl rfl
      · exact hs.enter hhandle hadding hadd
      · exact hkeep rfl rfl
    · cases hstep
  | added =>
    simp only [nextPooled] at hstep
    split at hstep
    · next hmain hcall =>
      cases hstep
      obtain ⟨k, hadding, hk⟩ := Option.bind_eq_some_iff.mp hcall
      refine ⟨hs.sound, ?_, fun h => (h rfl).elim, hs.kept⟩
      -- the call that returned was the only one to offer a task
      intro j pc u hj hu
      cases hadding.symm.trans (hs.offers j pc u hj hu)
      cases hk.symm.trans hj
      rcases hu with hu | hu <;> cases hu
    · cases hstep
  | io w n =>
    simp only [nextPooled] at hstep
    split at hstep <;> cases hstep
    exact hkeep rfl rfl
  | broadcast w i n =>
    simp only [nextPooled] at hstep
    split at hstep
    · split at hstep <;> cases hstep
      exact hkeep rfl rfl
    · cases hstep

end LinuxPrograms.EpollTcp
