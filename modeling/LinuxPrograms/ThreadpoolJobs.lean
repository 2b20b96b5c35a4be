import LinuxPrograms.ThreadpoolRest
import Mathlib.Data.Multiset.Basic

/-! What the thread pool is for: a bounded queue of jobs and servers that run them, which the code
of the pool refines. -/
namespace LinuxPrograms.Threadpool
open Lib

/-- Jobs that wait, and jobs that run. -/
structure Jobs (α : Type*) where
  queue : List α
  running : Multiset α

/-- With `room` places for those that wait and `servers` for those that run. -/
inductive Jobs.Step {α : Type*} (room servers : ℕ) : Jobs α → Jobs α → Prop
  | offer {j : Jobs α} {x : α} (hroom : j.queue.length < room) :
      Step room servers j ⟨j.queue ++ [x], j.running⟩
  | start {x : α} {queue : List α} {running : Multiset α} (hserver : running.card < servers) :
      Step room servers ⟨x :: queue, running⟩ ⟨queue, x ::ₘ running⟩
  | finish {x : α} {queue : List α} {running : Multiset α} :
      Step room servers ⟨queue, x ::ₘ running⟩ ⟨queue, running⟩

variable {s s' s₀ s₁ : State} {a : Act} {threads size k : ℕ} {n q : ℤ} {garbage : ℕ → Task}

/-- The jobs of the pool: the tasks accepted and not yet taken, and those in the workers' hands. -/
def State.jobs (s : State) : Jobs Task where
  queue := (s.accepted.map Prod.snd).drop s.taken.length
  running := s.held

theorem Accounted.jobs_eq {pending : List Task} (h : Accounted size s pending) :
    s.jobs = ⟨pending, s.held⟩ := by
  rw [State.jobs, h.order, List.drop_left]

/-! What happens to the two lists of a pool makes a step of its jobs. -/

theorem jobs_offer {t : Task} (hroom : s.jobs.queue.length < size)
    (hqueue : s'.jobs.queue = s.jobs.queue ++ [t]) (hheld : s'.held.Perm s.held) :
    Jobs.Step size threads s.jobs s'.jobs := by
  have hnew : s'.jobs = ⟨s.jobs.queue ++ [t], s.held⟩ :=
    congrArg₂ Jobs.mk hqueue (Multiset.coe_eq_coe.mpr hheld)
  rw [hnew]
  exact .offer hroom

theorem jobs_start {t : Task} (hqueue : s.jobs.queue = t :: s'.jobs.queue)
    (hheld : s'.held.Perm (t :: s.held)) (hserver : s.held.length < threads) :
    Jobs.Step size threads s.jobs s'.jobs := by
  have hold : s.jobs = ⟨t :: s'.jobs.queue, s.held⟩ := congrArg₂ Jobs.mk hqueue rfl
  have hnew : s'.jobs = ⟨s'.jobs.queue, t ::ₘ s.held⟩ :=
    congrArg (Jobs.mk _) (Multiset.coe_eq_coe.mpr hheld)
  exact (congrArg₂ (Jobs.Step size threads) hold hnew).mpr (.start hserver)

theorem jobs_finish {t : Task} (hqueue : s'.jobs.queue = s.jobs.queue)
    (hheld : s.held.Perm (t :: s'.held)) : Jobs.Step size threads s.jobs s'.jobs := by
  have hold : s.jobs = ⟨s'.jobs.queue, t ::ₘ s'.held⟩ :=
    congrArg₂ Jobs.mk hqueue.symm (Multiset.coe_eq_coe.mpr hheld)
  rw [hold]
  exact .finish

/-- A worker that has nothing in hand leaves a server free. -/
theorem Sound.held_lt {i : ℕ} {pc : WorkerPc} (hs : Sound threads size s)
    (hi : s.workers[i]? = some pc) (hpc : pc.task = none) : s.held.length < threads := by
  obtain ⟨rest, hrest, -⟩ := exists_others hi
  have hheld : s.held.Perm (rest.filterMap WorkerPc.task) := by
    have hcons := hrest.filterMap WorkerPc.task
    rwa [List.filterMap_cons_none hpc] at hcons
  have hlength := hrest.length_eq
  have hworkers := hs.workers_le
  have hle := List.length_filterMap_le WorkerPc.task rest
  rw [List.length_cons] at hlength
  rw [hheld.length_eq]
  omega

/-- A worker that takes a task takes the job that has waited longest. -/
theorem Sound.grab_jobs {i : ℕ} {t : Task} {pool : Pool} (hs : Sound threads size s)
    (hi : s.workers[i]? = some .check) (hwait : ¬s.pool.Waits) (hbreak : ¬s.pool.Breaks)
    (hgrab : s.pool.grab = some (t, pool))
    (hs' : s' = State.moveWorker { s with pool := pool, taken := s.taken ++ [t] } i (.grabbed t)) :
    s.jobs.queue = t :: s'.jobs.queue ∧ s'.held.Perm (t :: s.held) := by
  subst hs'
  obtain ⟨pending, haccounted⟩ := hs.accounted
  obtain ⟨t', pending', pool', rfl, hgrab', -⟩ := haccounted.holds.grab hwait hbreak
  rw [hgrab'] at hgrab
  cases hgrab
  constructor
  · rw [haccounted.jobs_eq]
    change t :: pending' = t :: (s.accepted.map Prod.snd).drop (s.taken ++ [t]).length
    rw [haccounted.order, List.append_cons s.taken t pending', List.drop_left]
  · obtain ⟨rest, hold, hnew⟩ := filterMap_set WorkerPc.task hi
    exact (hnew (.grabbed t)).trans (hold.symm.cons t)

/-- A worker that finishes a task lets go of it. -/
theorem finish_held {i : ℕ} {t : Task} (hi : s.workers[i]? = some (.running t))
    (hs' : s' = State.moveWorker { s with finished := s.finished ++ [t] } i .lock) :
    s.held.Perm (t :: s'.held) := by
  subst hs'
  obtain ⟨rest, hold, hnew⟩ := filterMap_set WorkerPc.task hi
  exact hold.trans ((hnew .lock).symm.cons t)

/-- The other moves of a worker leave the jobs alone. -/
theorem moveWorker_held {i : ℕ} {pc pc' : WorkerPc} (hi : s.workers[i]? = some pc)
    (htask : pc'.task = pc.task) (hworkers : s₁.workers = s.workers) :
    (s₁.moveWorker i pc').held.Perm s.held := by
  change ((s₁.workers.set i pc').filterMap WorkerPc.task).Perm _
  rw [hworkers]
  exact filterMap_set_of_eq hi htask

/-- What waits is counted. -/
theorem Sound.queue_length (hs : Sound threads size s) :
    s.pool.count = s.jobs.queue.length ∧ s.pool.queueSize = size ∧
      s.jobs.queue.length ≤ size := by
  obtain ⟨pending, haccounted⟩ := hs.accounted
  have hfits := haccounted.holds.ring.fits
  rw [haccounted.size] at hfits
  rw [haccounted.jobs_eq]
  exact ⟨haccounted.holds.count, haccounted.size, hfits⟩

/-- A pool that does not refuse a task has room for it. -/
theorem Sound.room (hs : Sound threads size s) (hrefuse : s.pool.refuses = none) :
    s.jobs.queue.length < size := by
  obtain ⟨hcount, hsize, hfits⟩ := hs.queue_length
  have hfull : s.pool.count ≠ s.pool.queueSize := by
    intro hfull
    rw [Pool.refuses, if_pos hfull] at hrefuse
    cases hrefuse
  omega

/-- A task that is accepted joins the jobs that wait. -/
theorem Sound.put_jobs {t : Task} (hs : Sound threads size s)
    (haccepted : s'.accepted = s.accepted ++ [(k, t)]) (htaken : s'.taken = s.taken) :
    s'.jobs.queue = s.jobs.queue ++ [t] := by
  obtain ⟨pending, haccounted⟩ := hs.accounted
  rw [haccounted.jobs_eq, State.jobs, haccepted, htaken, List.map_append, haccounted.order,
    List.append_assoc, List.drop_left]
  rfl

theorem WorkerMove.jobs {i : ℕ} {pc pc' : WorkerPc} (h : WorkerMove s pc pc' s₁)
    (hi : s.workers[i]? = some pc) (hs : Sound threads size s) :
    (s₁.moveWorker i pc').jobs = s.jobs ∨
      Jobs.Step size threads s.jobs (s₁.moveWorker i pc').jobs := by
  have hkeep (htask : pc'.task = pc.task) (hworkers : s₁.workers = s.workers) :
      ((s₁.moveWorker i pc').held : Multiset Task) = s.held :=
    Multiset.coe_eq_coe.mpr (moveWorker_held hi htask hworkers)
  cases h with
  | @grab t pool hwait hbreak hgrab =>
    obtain ⟨hqueue, hheld⟩ := hs.grab_jobs hi hwait hbreak hgrab rfl
    exact .inr (jobs_start hqueue hheld (hs.held_lt hi rfl))
  | finish => exact .inr (jobs_finish rfl (finish_held hi rfl))
  | _ =>
    left
    exact congrArg (Jobs.mk _) (hkeep rfl rfl)

theorem CallMove.jobs {pc pc' : CallPc} (h : CallMove s k pc pc' s₁)
    (hs : Sound threads size s) :
    (s₁.moveCall k pc').jobs = s.jobs ∨ Jobs.Step size threads s.jobs (s₁.moveCall k pc').jobs := by
  have hheld : (s₁.held : Multiset Task) = s.held := Multiset.coe_eq_coe.mpr (held_perm_of_calls h)
  cases h with
  | put hrefuse => exact .inr (jobs_offer (hs.room hrefuse) (hs.put_jobs rfl rfl) (.refl _))
  | _ =>
    left
    exact congrArg (Jobs.mk _) hheld

/-- Every step of the pool is a step of the jobs, or leaves them as they are. -/
theorem pool_refines_jobs (hcreate : threadpoolCreate n q garbage = some s₀)
    (hreach : Reachable next s₀ s) (hstep : next s a = some s') :
    s'.jobs = s.jobs ∨ Jobs.Step q.toNat n.toNat s.jobs s'.jobs := by
  obtain ⟨-, hs⟩ := reachable_sound hcreate hreach
  obtain ⟨-, hstep⟩ := next_step hstep
  cases hstep with
  | start =>
    left
    refine congrArg (Jobs.mk _) ?_
    rw [State.held, List.filterMap_append]
    exact congrArg _ (List.append_nil _)
  | worker hi hmove => exact hmove.jobs hi hs
  | call hk hmove => exact hmove.jobs hs
  | _ => exact .inl rfl

/-- The worker of the pool at work on its first task. -/
def busyState : State := (exec next smallPool (addOne ++ List.replicate 3 (.worker 0))).get rfl

theorem pool_refines_jobs_small :
    ranState.jobs = busyState.jobs ∨
      Jobs.Step (1 : ℤ).toNat (1 : ℤ).toNat busyState.jobs ranState.jobs :=
  pool_refines_jobs (a := .worker 0) smallPool_create (Reachable.of_exec
    (show exec next smallPool (addOne ++ List.replicate 3 (.worker 0)) = some busyState from rfl))
    rfl

end LinuxPrograms.Threadpool
