import LinuxPrograms.LibRuns
import Mathlib.Data.Int.Notation
import Mathlib.Data.List.Basic

/-! The thread pool of the epoll TCP server (`threadpool.c`). Worker threads and callers of
`threadpool_add` and `threadpool_destroy` move one at a time, between two operations on the mutex
or the condition variable. -/
namespace LinuxPrograms.Threadpool
open Lib

def maxThreads : ℤ := 64

def maxQueue : ℤ := 65536

def threadpoolInvalid : ℤ := -1

def threadpoolQueueFull : ℤ := -3

def threadpoolShutdown : ℤ := -4

/-- `threadpool_graceful`, the only known flag. -/
def threadpoolGraceful : BitVec 32 := 1

/-- A `threadpool_task_t`; the function at address 0 is `NULL`. -/
structure Task where
  function : ℕ
  argument : ℕ
deriving DecidableEq, Repr

/-- The values of `pool->shutdown`. -/
inductive Shutdown
  | none
  | immediate
  | graceful
deriving DecidableEq, Repr

/-- What `threadpool_destroy` sets `pool->shutdown` to. -/
def shutdownFor (flags : BitVec 32) : Shutdown :=
  if flags &&& threadpoolGraceful ≠ 0 then .graceful else .immediate

/-- A `threadpool_t` without its mutex and condition variable. -/
structure Pool where
  queue : List Task
  threadCount : ℕ
  queueSize : ℕ
  head : ℕ
  tail : ℕ
  count : ℤ
  shutdown : Shutdown
  started : ℤ
deriving DecidableEq, Repr

/-- An index after its increment. -/
def Pool.wrap (pool : Pool) (i : ℕ) : ℕ := if i+1 = pool.queueSize then 0 else i+1

/-- `threadpool_add` writes a task; a place outside the array is undefined. -/
def Pool.put (pool : Pool) (t : Task) : Option Pool :=
  if pool.tail < pool.queue.length then
    some { pool with
      queue := pool.queue.set pool.tail t
      tail := pool.wrap pool.tail
      count := pool.count+1 }
  else none

/-- A worker reads a task. -/
def Pool.grab (pool : Pool) : Option (Task × Pool) :=
  (pool.queue[pool.head]?).map fun t =>
    (t, { pool with head := pool.wrap pool.head, count := pool.count-1 })

/-- What `threadpool_add` answers when it does not add the task. -/
def Pool.refuses (pool : Pool) : Option ℤ :=
  if pool.count = pool.queueSize then some threadpoolQueueFull
  else if pool.shutdown ≠ .none then some threadpoolShutdown
  else none

/-- The condition of a worker's inner loop. -/
def Pool.Waits (pool : Pool) : Prop := pool.count = 0 ∧ pool.shutdown = .none

instance (pool : Pool) : Decidable pool.Waits := inferInstanceAs (Decidable (_ ∧ _))

/-- The condition under which a worker leaves its outer loop. -/
def Pool.Breaks (pool : Pool) : Prop :=
  pool.shutdown = .immediate ∨ pool.shutdown = .graceful ∧ pool.count = 0

instance (pool : Pool) : Decidable pool.Breaks := inferInstanceAs (Decidable (_ ∨ _))

/-- Where a worker is in `threadpool_thread`. -/
inductive WorkerPc
  | lock                -- before it has the mutex, at the start or on its way out of a wait
  | check
  | waiting
  | grabbed (t : Task)
  | running (t : Task)
  | leaving
  | exited
deriving DecidableEq, Repr

/-- Where a caller of the pool is. -/
inductive CallPc
  | addLock (t : Task)
  | addTest (t : Task)
  | addSignal
  | addUnlock (err : ℤ)
  | addReturned (err : ℤ)
  | destroyLock (flags : BitVec 32)
  | destroyTest (flags : BitVec 32)
  | destroyBroadcast
  | destroyUnlock
  | joining (i : ℕ)
  | destroyReturned (err : ℤ)
deriving DecidableEq, Repr

/-- Where `threadpool_create` is: `left` threads are still to be started. -/
inductive Creator
  | starting (left : ℕ)
  | returned
  | failed
deriving DecidableEq, Repr

structure State where
  pool : Pool
  locked : Bool
  creator : Creator
  workers : List WorkerPc
  calls : List CallPc
  freed : Bool
  accepted : List (ℕ × Task)  -- the call that added a task, and the task
  taken : List Task
  finished : List Task
deriving DecidableEq, Repr

inductive Act
  | startThread (ok : Bool)             -- whether `pthread_create` succeeds
  | worker (i : ℕ)
  | spurious (i : ℕ)                    -- `pthread_cond_wait` returns by itself
  | add (t : Task)
  | destroy (flags : BitVec 32)
  | call (k : ℕ) (wake : Option ℕ)      -- the worker a signal wakes
deriving DecidableEq, Repr

/-- The pool before its threads are started; `garbage` is what `malloc` returned. -/
def setup (threadCount queueSize : ℕ) (garbage : ℕ → Task) : State where
  pool := {
    queue := (List.range queueSize).map garbage
    threadCount := 0
    queueSize := queueSize
    head := 0
    tail := 0
    count := 0
    shutdown := .none
    started := 0 }
  locked := false
  creator := .starting threadCount
  workers := []
  calls := []
  freed := false
  accepted := []
  taken := []
  finished := []

/-- `threadpool_create` up to the start of the threads. -/
def threadpoolCreate (threadCount queueSize : ℤ) (garbage : ℕ → Task) : Option State :=
  if threadCount ≤ 0 ∨ threadCount > maxThreads ∨ queueSize ≤ 0 ∨ queueSize > maxQueue then none
  else some (setup threadCount.toNat queueSize.toNat garbage)

def State.moveWorker (s : State) (i : ℕ) (pc : WorkerPc) : State :=
  { s with workers := s.workers.set i pc }

def State.moveCall (s : State) (k : ℕ) (pc : CallPc) : State :=
  { s with calls := s.calls.set k pc }

/-- What `pthread_cond_broadcast` does to a worker. -/
def WorkerPc.woken : WorkerPc → WorkerPc
  | .waiting => .lock
  | pc => pc

/-- The loop that starts the threads; when one cannot be started, the others are told to leave. -/
def startThread (s : State) (ok : Bool) : Option State :=
  match s.creator with
  | .starting (left+1) =>
    if ok then
      some { s with
        pool := { s.pool with
          threadCount := s.pool.threadCount+1, started := s.pool.started+1 }
        workers := s.workers ++ [.lock]
        creator := .starting left }
    else some { s with calls := s.calls ++ [.destroyLock 0], creator := .failed }
  | .starting 0 => some { s with creator := .returned }
  | _ => none

/-- `threadpool_thread` from one operation on the mutex to the next. -/
def threadpoolThread (s : State) (i : ℕ) : WorkerPc → Option State
  | .lock => if s.locked then none else some { s.moveWorker i .check with locked := true }
  | .check =>
    if s.pool.Waits then some { s.moveWorker i .waiting with locked := false }
    else if s.pool.Breaks then
      some { s.moveWorker i .leaving with pool := { s.pool with started := s.pool.started-1 } }
    else
      (s.pool.grab).map fun p =>
        { s.moveWorker i (.grabbed p.1) with pool := p.2, taken := s.taken ++ [p.1] }
  | .waiting => none
  | .grabbed t => some { s.moveWorker i (.running t) with locked := false }
  | .running t => some { s.moveWorker i .lock with finished := s.finished ++ [t] }
  | .leaving => some { s.moveWorker i .exited with locked := false }
  | .exited => none

/-- `pthread_cond_signal` wakes a waiting worker, if there is one. -/
def signal (workers : List WorkerPc) : Option ℕ → Option (List WorkerPc)
  | none => if .waiting ∈ workers then none else some workers
  | some i => if workers[i]? = some .waiting then some (workers.set i .lock) else none

/-- `threadpool_free`: it gives up while there are threads, and waits for the mutex. -/
def threadpoolFree (s : State) : Option State :=
  if s.pool.started > 0 then some s
  else if s.locked then none
  else some { s with freed := true }

/-- `threadpool_add` and `threadpool_destroy` from one operation on the mutex to the next. The
second call of `threadpool_destroy` returns with the mutex locked. -/
def callStep (s : State) (k : ℕ) (wake : Option ℕ) : CallPc → Option State
  | .addLock t => if s.locked then none else some { s.moveCall k (.addTest t) with locked := true }
  | .addTest t =>
    match s.pool.refuses with
    | some err => some (s.moveCall k (.addUnlock err))
    | none =>
      (s.pool.put t).map fun pool =>
        { s.moveCall k .addSignal with pool := pool, accepted := s.accepted ++ [(k, t)] }
  | .addSignal =>
    (signal s.workers wake).map fun workers =>
      { s.moveCall k (.addUnlock 0) with workers := workers }
  | .addUnlock err => some { s.moveCall k (.addReturned err) with locked := false }
  | .addReturned _ => none
  | .destroyLock flags =>
    if s.locked then none else some { s.moveCall k (.destroyTest flags) with locked := true }
  | .destroyTest flags =>
    if s.pool.shutdown ≠ .none then some (s.moveCall k (.destroyReturned threadpoolShutdown))
    else
      some { s.moveCall k .destroyBroadcast with
        pool := { s.pool with shutdown := shutdownFor flags } }
  | .destroyBroadcast =>
    some { s.moveCall k .destroyUnlock with workers := s.workers.map .woken }
  | .destroyUnlock => some { s.moveCall k (.joining 0) with locked := false }
  | .joining i =>
    if i < s.pool.threadCount then
      if s.workers[i]? = some .exited then some (s.moveCall k (.joining (i+1))) else none
    else (threadpoolFree s).map fun s => s.moveCall k (.destroyReturned 0)
  | .destroyReturned _ => none

/-- One step of the program; what happens to a pool that is freed is not defined. -/
def next (s : State) (a : Act) : Option State :=
  if s.freed then none
  else
    match a with
    | .startThread ok => startThread s ok
    | .worker i => (s.workers[i]?).bind (threadpoolThread s i)
    | .spurious i => if s.workers[i]? = some .waiting then some (s.moveWorker i .lock) else none
    | .add t =>
      if s.creator ≠ .returned then none
      else
        some { s with calls := s.calls ++
          [if t.function = 0 then .addReturned threadpoolInvalid else .addLock t] }
    | .destroy flags =>
      if s.creator ≠ .returned then none
      else some { s with calls := s.calls ++ [.destroyLock flags] }
    | .call k wake => (s.calls[k]?).bind (callStep s k wake)

end LinuxPrograms.Threadpool
