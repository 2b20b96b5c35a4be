import LinuxPrograms.EpollTcpPool

/-! The server over the pool's code refines the server whose pool is a bounded queue: a task joins
the queue when its call of `threadpool_add` has put it into the ring, and runs from the moment a
worker has taken it out. -/
namespace LinuxPrograms.EpollTcp
open Lib
open Threadpool (CallPc CallMove WorkerPc WorkerMove)

variable {listenfd handle : ℕ} {s s' : Pooled} {t : Server} {p : Threadpool.State}

/-- A task as the pool has it. -/
def Task.job (handle : ℕ) (u : Task) : Threadpool.Task := ⟨handle, u.arg⟩

/-- The task has found its place or was refused. -/
def settled : CallPc → Bool
  | .addSignal | .addUnlock _ | .addReturned _ => true
  | _ => false

/-- Where the loop is when a call of `threadpool_add` counts as made as soon as it is settled. -/
def Pooled.AtMain (listenfd handle : ℕ) (s : Pooled) (main : MainPc) : Prop :=
  match s.adding with
  | none => main = s.main
  | some k => ∃ i nfds pc, s.main = .scan i nfds ∧ (s.events i).fd ≠ listenfd ∧
      (s.events i).epollin = true ∧ s.pool.calls[k]? = some pc ∧
      (main = .scan i nfds ∧ Offers ⟨handle, i⟩ pc ∨ main = .advance i nfds ∧ settled pc = true)

/-- The server with a bounded queue has the same client list, and its tasks are the pool's. -/
structure Refines (listenfd handle : ℕ) (s : Pooled) (t : Server) : Prop where
  events : t.events = s.events
  registered : t.registered = s.registered
  list : t.list = s.list
  main : s.AtMain listenfd handle t.main
  queue : t.queue.map (Task.job handle) = s.pool.jobs.queue
  running : (t.running.map (Task.job handle)).Perm s.pool.held

theorem setup_refines (listenfd handle : ℕ) (garbage : ℕ → EpollEvent)
    (tasks : ℕ → Threadpool.Task) :
    Refines listenfd handle (.setup listenfd garbage tasks) (setup listenfd garbage) :=
  ⟨rfl, rfl, rfl, rfl, rfl, .refl _⟩

theorem Refines.atMain (h : Refines listenfd handle s t) (hadding : s.adding = none) :
    t.main = s.main := by
  have hmain := h.main
  rwa [Pooled.AtMain, hadding] at hmain

theorem atMain_worker {i : ℕ} {pc pc' : WorkerPc} {main : MainPc}
    (h : s.AtMain listenfd handle main) (hmove : WorkerMove s.pool pc pc' p) :
    Pooled.AtMain listenfd handle { s with pool := p.moveWorker i pc' } main := by
  unfold Pooled.AtMain at h ⊢
  dsimp only [Threadpool.State.moveWorker]
  rw [hmove.calls]
  exact h

/-- A worker that takes no task and finishes none does nothing the loop could tell. -/
theorem Refines.moved {i : ℕ} {pc pc' : WorkerPc} (h : Refines listenfd handle s t)
    (hi : s.pool.workers[i]? = some pc) (hmove : WorkerMove s.pool pc pc' p)
    (htask : pc'.task = pc.task) :
    Refines listenfd handle { s with pool := p.moveWorker i pc' } t := by
  have hqueue : p.jobs.queue = s.pool.jobs.queue := by
    cases hmove with
    | grab => cases htask
    | _ => rfl
  have hheld := Threadpool.moveWorker_held hi htask hmove.workers
  exact ⟨h.events, h.registered, h.list, atMain_worker h.main hmove, h.queue.trans hqueue.symm,
    h.running.trans hheld.symm⟩

/-- A worker takes the task that the other server starts. -/
theorem Refines.grabbed {i : ℕ} {task : Threadpool.Task} (h : Refines listenfd handle s t)
    (hs : Held s) (hi : s.pool.workers[i]? = some .check)
    (hmove : WorkerMove s.pool .check (.grabbed task) p) :
    ∃ u queue, t.queue = u :: queue ∧ t.running.length < threadCount ∧
      Refines listenfd handle { s with pool := p.moveWorker i (.grabbed task) }
        { t with queue := queue, running := t.running ++ [u] } := by
  have hmain := atMain_worker (i := i) h.main hmove
  cases hmove with
  | grab hwait hbreak hgrab =>
    obtain ⟨hqueue, hheld⟩ := hs.sound.grab_jobs hi hwait hbreak hgrab rfl
    have hlength := h.running.length_eq
    rw [List.length_map] at hlength
    obtain ⟨u, queue, htqueue, hu, hrest⟩ := List.map_eq_cons_iff.mp (h.queue.trans hqueue)
    refine ⟨u, queue, htqueue, hlength.trans_lt (hs.sound.held_lt hi rfl), h.events, h.registered,
      h.list, hmain, hrest, ?_⟩
    rw [List.map_append, List.map_singleton, hu]
    exact (List.perm_append_singleton task _).trans ((h.running.cons task).trans hheld.symm)

/-- A worker finishes a task, and the other server one that is the same to the pool. -/
theorem Refines.finished {i k : ℕ} {u : Task} (h : Refines listenfd handle s t)
    (hi : s.pool.workers[i]? = some (.running (u.job handle))) (hk : t.running[k]? = some u)
    (hmove : WorkerMove s.pool (.running (u.job handle)) .lock p) :
    Refines listenfd handle { s with pool := p.moveWorker i .lock }
      { t with running := t.running.eraseIdx k } := by
  have hmain := atMain_worker (i := i) h.main hmove
  cases hmove with
  | finish =>
    have hheld := Threadpool.finish_held hi rfl
    refine ⟨h.events, h.registered, h.list, hmain, h.queue, ?_⟩
    -- the task that was running, and the others
    obtain ⟨hlt, rfl⟩ := List.getElem?_eq_some_iff.mp hk
    have hothers := (List.getElem_cons_eraseIdx_perm hlt).map (Task.job handle)
    exact (hothers.trans (h.running.trans hheld)).cons_inv

/-- The task a worker runs is one that the other server has running. -/
theorem Refines.exists_running {w : ℕ} {task : Threadpool.Task} (h : Refines listenfd handle s t)
    (hw : s.pool.workers[w]? = some (.running task)) :
    ∃ (k : ℕ) (u : Task), t.running[k]? = some u ∧ u.job handle = task := by
  have hheld : task ∈ s.pool.held := List.mem_filterMap.mpr ⟨_, List.mem_of_getElem? hw, rfl⟩
  obtain ⟨u, hu, hjob⟩ := List.mem_map.mp (h.running.mem_iff.mpr hheld)
  obtain ⟨k, hk⟩ := List.mem_iff_getElem?.mp hu
  exact ⟨k, u, hk, hjob⟩

theorem Refines.worker {i : ℕ} {pc pc' : WorkerPc} (h : Refines listenfd handle s t)
    (hs : Held s) (hi : s.pool.workers[i]? = some pc) (hmove : WorkerMove s.pool pc pc' p) :
    Refines listenfd handle { s with pool := p.moveWorker i pc' } t ∨
      ∃ b t', nextServer listenfd t b = some t' ∧ t.seen listenfd b = none ∧
        Refines listenfd handle { s with pool := p.moveWorker i pc' } t' := by
  by_cases htask : pc'.task = pc.task
  · exact .inl (h.moved hi hmove htask)
  right
  cases id hmove with
  | grab =>
    obtain ⟨u, queue, hqueue, hserver, hafter⟩ := h.grabbed hs hi hmove
    refine ⟨.start, _, ?_, rfl, hafter⟩
    simp only [nextServer, hqueue]
    exact if_pos hserver
  | finish =>
    obtain ⟨k, u, hk, rfl⟩ := h.exists_running hi
    have hlt := (List.getElem?_eq_some_iff.mp hk).1
    exact ⟨.finish k, _, if_pos hlt, rfl, h.finished hi hk hmove⟩
  | _ => exact (htask rfl).elim

/-- A step of the server over the pool, and what the other server does meanwhile. -/
def Matched (listenfd handle : ℕ) (s : Pooled) (a : PooledAct) (s' : Pooled) (t : Server) : Prop :=
  (s.seen listenfd a = none ∧ Refines listenfd handle s' t) ∨
    ∃ b t', nextServer listenfd t b = some t' ∧ t.seen listenfd b = s.seen listenfd a ∧
      Refines listenfd handle s' t'

/-- A call that moves without being settled by the move. -/
theorem atMain_move {k : ℕ} {pc pc' : CallPc} {main : MainPc} (h : s.AtMain listenfd handle main)
    (hk : s.pool.calls[k]? = some pc) (hcalls : p.calls = s.pool.calls)
    (hoffers : ∀ u, Offers u pc → Offers u pc')
    (hsettled : settled pc = true → settled pc' = true) :
    Pooled.AtMain listenfd handle { s with pool := p.moveCall k pc' } main := by
  unfold Pooled.AtMain at h ⊢
  cases hadding : s.adding with
  | none =>
    rw [hadding] at h
    exact h
  | some j =>
    rw [hadding] at h
    obtain ⟨i, nfds, pc₀, hmain, hfd, hin, hj, hphase⟩ := h
    dsimp only [Threadpool.State.moveCall]
    rw [hcalls]
    by_cases hjk : k = j
    · subst hjk
      cases hk.symm.trans hj
      refine ⟨i, nfds, pc', hmain, hfd, hin, ?_, ?_⟩
      · exact List.getElem?_set_self (List.getElem?_eq_some_iff.mp hk).1
      · exact hphase.imp (And.imp_right (hoffers _)) (And.imp_right hsettled)
    · refine ⟨i, nfds, pc₀, hmain, hfd, hin, ?_, hphase⟩
      rw [List.getElem?_set_ne hjk]
      exact hj

/-- The loop body that waits for its call, and is done with it when the call is settled. -/
theorem atMain_settle {k : ℕ} {pc' : CallPc} {main : MainPc} {u : Threadpool.Task}
    (h : s.AtMain listenfd handle main) (hadding : s.adding = some k)
    (hk : s.pool.calls[k]? = some (.addTest u)) (hcalls : p.calls = s.pool.calls)
    (hpc' : settled pc' = true) :
    ∃ i nfds, u = ⟨handle, i⟩ ∧ main = .scan i nfds ∧ (s.events i).fd ≠ listenfd ∧
      (s.events i).epollin = true ∧
      Pooled.AtMain listenfd handle { s with pool := p.moveCall k pc' } (.advance i nfds) := by
  unfold Pooled.AtMain at h ⊢
  rw [hadding] at h
  obtain ⟨i, nfds, pc₀, hmain, hfd, hin, hj, hphase⟩ := h
  cases hk.symm.trans hj
  rcases hphase with ⟨rfl, hoffer⟩ | ⟨-, hfalse⟩
  · refine ⟨i, nfds, ?_, rfl, hfd, hin, ?_⟩
    · rcases hoffer with hoffer | hoffer <;> cases hoffer
      rfl
    · dsimp only [Threadpool.State.moveCall]
      rw [hadding, hcalls]
      refine ⟨i, nfds, pc', hmain, hfd, hin, ?_, .inr ⟨rfl, hpc'⟩⟩
      exact List.getElem?_set_self (List.getElem?_eq_some_iff.mp hk).1
  · cases hfalse

/-- The pool refuses a task exactly when the bounded queue is full. -/
theorem Refines.full_iff (h : Refines listenfd handle s t) (hs : Held s)
    (hcreated : s.pool.creator = .returned) :
    t.queue.length = queueSize ↔ s.pool.pool.refuses ≠ none := by
  obtain ⟨hcount, hsize, -⟩ := hs.sound.queue_length
  have hlength := congrArg List.length h.queue
  rw [List.length_map] at hlength
  obtain ⟨hshut, -⟩ := hs.kept (by rw [hcreated]; nofun)
  rw [hlength, Threadpool.Pool.refuses, hcount, hsize, hshut]
  by_cases hfull : s.pool.jobs.queue.length = queueSize
  · rw [hfull, if_pos rfl]
    exact iff_of_true rfl (Option.some_ne_none _)
  · rw [if_neg (fun h => hfull (Int.ofNat_inj.mp h)), if_neg (not_not.mpr rfl)]
    exact iff_of_false hfull fun h => h rfl

/-- The other server's loop body for an event that calls for a task. -/
theorem next_offers {i nfds : ℕ} (hmain : t.main = .scan i nfds) (hfd : (t.events i).fd ≠ listenfd)
    (hin : (t.events i).epollin = true) :
    nextServer listenfd t (.next none) = some { t with
      queue := if t.queue.length = queueSize then t.queue
        else t.queue ++ [⟨i, (t.events i).fd, t.batches.length⟩]
      main := .advance i nfds } ∧
    t.seen listenfd (.next none) = some (.offered i (decide (t.queue.length ≠ queueSize))) := by
  simp only [nextServer, Server.seen, hmain, scanStep, if_neg hfd, if_pos hin, and_self]

theorem Refines.call {k : ℕ} {wake : Option ℕ} {pc pc' : CallPc}
    (h : Refines listenfd handle s t) (hs : Held s) (hk : s.pool.calls[k]? = some pc)
    (hmove : CallMove s.pool k pc pc' p) :
    Matched listenfd handle s (.pool (.call k wake)) { s with pool := p.moveCall k pc' } t := by
  have hheld := Threadpool.held_perm_of_calls hmove
  have hcalls := hmove.calls
  -- a move that does not settle a call is not seen by the loop
  have hkeep (hoffers : ∀ u, Offers u pc → Offers u pc')
      (hsettled : settled pc = true → settled pc' = true)
      (hqueue : p.jobs.queue = s.pool.jobs.queue) :
      Refines listenfd handle { s with pool := p.moveCall k pc' } t :=
    ⟨h.events, h.registered, h.list, atMain_move h.main hk hcalls hoffers hsettled,
      h.queue.trans hqueue.symm, h.running.trans hheld.symm⟩
  have hseen (hpc : ∀ u, pc ≠ .addTest u) : s.seen listenfd (.pool (.call k wake)) = none := by
    simp only [Pooled.seen, hk]
    split
    · next u heq => exact (hpc u (Option.some.inj heq)).elim
    · rfl
  cases hmove with
  | @addLock u =>
    refine .inl ⟨hseen nofun, hkeep (fun v hv => ?_) nofun rfl⟩
    rcases hv with hv | hv <;> cases hv
    exact .inr rfl
  | @refuse u err hrefuse =>
    have hadding := hs.offers k _ u hk (.inr rfl)
    have hcreated := hs.created (by rw [hadding]; nofun)
    obtain ⟨i, nfds, rfl, hmain, hfd, hin, hafter⟩ :=
      atMain_settle h.main hadding hk rfl (rfl : settled (.addUnlock err) = true)
    have hfull := (h.full_iff hs hcreated).mpr (by rw [hrefuse]; nofun)
    rw [← h.events] at hfd hin
    obtain ⟨hnext, hsees⟩ := next_offers hmain hfd hin
    rw [if_pos hfull] at hnext
    refine .inr ⟨_, _, hnext, ?_, h.events, h.registered, h.list, hafter, h.queue, h.running⟩
    rw [hsees, decide_eq_false (not_not.mpr hfull)]
    simp only [Pooled.seen, hk, hrefuse]
    rfl
  | @put u pool hrefuse hput =>
    have hadding := hs.offers k _ u hk (.inr rfl)
    have hcreated := hs.created (by rw [hadding]; nofun)
    obtain ⟨i, nfds, rfl, hmain, hfd, hin, hafter⟩ :=
      atMain_settle h.main hadding hk hcalls (rfl : settled .addSignal = true)
    have hroom : t.queue.length ≠ queueSize := by
      intro hfull
      exact (h.full_iff hs hcreated).mp hfull hrefuse
    rw [← h.events] at hfd hin
    obtain ⟨hnext, hsees⟩ := next_offers hmain hfd hin
    rw [if_neg hroom] at hnext
    refine .inr ⟨_, _, hnext, ?_, h.events, h.registered, h.list, hafter, ?_, h.running⟩
    · rw [hsees, decide_eq_true hroom]
      simp only [Pooled.seen, hk, hrefuse]
      rfl
    · rw [List.map_append, h.queue]
      exact Eq.symm (hs.sound.put_jobs rfl rfl)
  | signal | signalNobody | addUnlock =>
    exact .inl ⟨hseen nofun, hkeep (fun v hv => by rcases hv with hv | hv <;> cases hv)
      (fun _ => rfl) rfl⟩
  | _ =>
    exact .inl ⟨hseen nofun, hkeep (fun v hv => by rcases hv with hv | hv <;> cases hv) nofun rfl⟩

theorem Refines.create {ok : Bool} (h : Refines listenfd handle s t) (hs : Held s)
    (hcreate : Threadpool.startThread s.pool ok = some p) :
    Refines listenfd handle { s with pool := p } t := by
  obtain ⟨hreturned, -, hjobs, -⟩ := create_pool hcreate
  have hadding : s.adding = none := not_not.mp fun hadding => hreturned (hs.created hadding)
  have hmain : Pooled.AtMain listenfd handle { s with pool := p } t.main := by
    rw [Pooled.AtMain, hadding]
    exact h.atMain hadding
  have hqueue := congrArg Threadpool.Jobs.queue hjobs
  have hheld := Multiset.coe_eq_coe.mp (congrArg Threadpool.Jobs.running hjobs)
  exact ⟨h.events, h.registered, h.list, hmain, h.queue.trans hqueue.symm,
    h.running.trans hheld.symm⟩

/-- Inside the pool the loop is not at work. -/
theorem Refines.pool {a : Threadpool.Act} (h : Refines listenfd handle s t) (hs : Held s)
    (ha : inPool a = true) (hstep : Threadpool.next s.pool a = some p) :
    Matched listenfd handle s (.pool a) { s with pool := p } t := by
  cases next_poolMove ha hstep with
  | create hcreate => exact .inl ⟨rfl, h.create hs hcreate⟩
  | worker hi hmove =>
    rcases h.worker hs hi hmove with hkept | hmatched
    · exact .inl ⟨rfl, hkept⟩
    · exact .inr hmatched
  | spurious hi =>
    rcases h.worker hs hi .wake with hkept | hmatched
    · exact .inl ⟨rfl, hkept⟩
    · exact .inr hmatched
  | call hk hmove => exact h.call hs hk hmove

/-- Both servers call `read` or `write` on a descriptor. -/
theorem Refines.transfer (h : Refines listenfd handle s t) (fd : ℕ) (n : IoRet)
    (derefs : List (ℕ × ℕ)) :
    Refines listenfd handle (s.transfer fd n) { t.transfer fd n with derefs := derefs } where
  events := h.events
  registered := by
    dsimp only [Server.transfer, Pooled.transfer]
    rw [h.registered]
  list := by
    dsimp only [Server.transfer, Pooled.transfer]
    rw [h.list]
  main := h.main
  queue := h.queue
  running := h.running

/-- The loop body, until its call of `threadpool_add` begins. -/
theorem Refines.scan {i nfds : ℕ} {conn : Option Clientmember} (h : Refines listenfd handle s t)
    (hhandle : handle ≠ 0) (hmain : s.main = .scan i nfds) (hadding : s.adding = none)
    (hstep : s.scan listenfd handle i nfds conn = some s') :
    Matched listenfd handle s (.next conn) s' t := by
  have htmain : t.main = .scan i nfds := (h.atMain hadding).trans hmain
  have hafter (list : Clilist) (registered : List ℕ) :
      Pooled.AtMain listenfd handle
        { s with list := list, registered := registered, main := .advance i nfds }
        (.advance i nfds) := by
    rw [Pooled.AtMain, hadding]
  obtain ⟨hfd, member, list, rfl, hnew, hadd, rfl⟩ | ⟨hfd, hin, pool, hadd, rfl⟩ |
    ⟨hfd, hin, rfl⟩ := scan_cases hstep
  · refine .inr ⟨.next (some member), { t with
      list := list, registered := member.fd :: t.registered, main := .advance i nfds }, ?_, ?_,
      h.events, congrArg (member.fd :: ·) h.registered, rfl, hafter _ _, h.queue, h.running⟩
    · rw [← h.registered] at hnew
      rw [← h.list] at hadd
      rw [← h.events] at hfd
      simp only [nextServer, htmain, scanStep, if_pos hfd, if_neg hnew, hadd]
    · simp only [Server.seen, Pooled.seen, htmain, hmain, h.events]
      rw [if_pos hfd, if_pos hfd]
  · obtain ⟨-, hpool⟩ := add_enters hhandle hadd
    refine .inl ⟨?_, h.events, h.registered, h.list, ?_, ?_, ?_⟩
    · simp only [Pooled.seen, hmain, if_neg hfd]
    · rw [htmain]
      refine ⟨i, nfds, .addLock ⟨handle, i⟩, hmain, hfd, hin, ?_, .inl ⟨rfl, .inl rfl⟩⟩
      rw [hpool]
      exact List.getElem?_concat_length
    · rw [hpool]
      exact h.queue
    · rw [hpool]
      exact h.running
  · refine .inr ⟨.next none, { t with main := .advance i nfds }, ?_, ?_,
      h.events, h.registered, h.list, hafter _ _, h.queue, h.running⟩
    · rw [← h.events] at hfd hin
      simp only [nextServer, htmain, scanStep, if_neg hfd, hin, Bool.false_eq_true, if_false]
    · simp only [Server.seen, Pooled.seen, htmain, hmain, h.events, if_neg hfd, hin,
        Bool.false_eq_true, if_false]

theorem nextPooled_matched (hhandle : handle ≠ 0) {a : PooledAct} (hs : Held s)
    (h : Refines listenfd handle s t) (hstep : nextPooled listenfd handle s a = some s') :
    Matched listenfd handle s a s' t := by
  cases a with
  | pool a =>
    simp only [nextPooled] at hstep
    split at hstep
    · next ha =>
      obtain ⟨p, hp, rfl⟩ := Option.map_eq_some_iff.mp hstep
      exact h.pool hs ha hp
    · cases hstep
  | epollWait batch =>
    simp only [nextPooled] at hstep
    split at hstep
    · next hmain hadding =>
      split at hstep <;> cases hstep
      next hguard =>
        refine .inr ⟨.epollWait batch, { t with
          events := writeBlock t.events batch
          main := if batch = [] then .wait else .scan 0 batch.length
          batches := t.batches ++ [batch] }, ?_, rfl, congrArg (writeBlock · batch) h.events,
          h.registered, h.list, ?_, h.queue, h.running⟩
        · simp only [nextServer, h.atMain hadding, hmain]
          exact if_pos ⟨hguard.2.1, h.registered ▸ hguard.2.2⟩
        · rw [Pooled.AtMain, hadding]
    · cases hstep
  | next conn =>
    simp only [nextPooled] at hstep
    split at hstep
    · next hmain hadding => exact h.scan hhandle hmain hadding hstep
    · cases hstep
  | added =>
    simp only [nextPooled] at hstep
    split at hstep
    · next i nfds err hmain hcall =>
      cases hstep
      obtain ⟨k, hadding, hk⟩ := Option.bind_eq_some_iff.mp hcall
      refine .inl ⟨rfl, h.events, h.registered, h.list, ?_, h.queue, h.running⟩
      -- a call that returned has been settled, and the other server has gone on
      have hat := h.main
      rw [Pooled.AtMain, hadding] at hat
      obtain ⟨i', nfds', pc, hmain', -, -, hk', hphase⟩ := hat
      cases hmain.symm.trans hmain'
      cases hk.symm.trans hk'
      rcases hphase with ⟨-, hoffer⟩ | ⟨hadvance, -⟩
      · rcases hoffer with hoffer | hoffer <;> cases hoffer
      · exact hadvance
    · cases hstep
  | io w n =>
    simp only [nextPooled] at hstep
    split at hstep
    · next task hw =>
      cases hstep
      obtain ⟨k, u, hk, rfl⟩ := h.exists_running hw
      refine .inr ⟨.io k n, _, ?_, ?_,
        h.transfer _ n (t.derefs ++ [(u.client, (t.events u.arg).fd)])⟩
      · simp only [nextServer, hk, h.events, Task.job]
      · simp only [Server.seen, Pooled.seen, hk, hw, Option.map_some, h.events, Task.job]
    · cases hstep
  | broadcast w i n =>
    simp only [nextPooled] at hstep
    split at hstep
    · next task hw =>
      split at hstep <;> cases hstep
      next hi =>
        obtain ⟨k, u, hk, -⟩ := h.exists_running hw
        have hlt := (List.getElem?_eq_some_iff.mp hk).1
        refine .inr ⟨.broadcast k i n, _, ?_, ?_, h.transfer _ n t.derefs⟩
        · simp only [nextServer, h.list]
          exact if_pos ⟨hlt, hi⟩
        · simp only [Server.seen, Pooled.seen, h.list]
    · cases hstep

/-- A run of the server over the pool is a run of the one with a bounded queue. -/
theorem shows_server (hhandle : handle ≠ 0) {garbage : ℕ → EpollEvent}
    {tasks : ℕ → Threadpool.Task} {l : List Shown}
    (h : Shows (nextPooled listenfd handle) (Pooled.seen listenfd) (.setup listenfd garbage tasks)
      l s) :
    ∃ t, Shows (nextServer listenfd) (Server.seen listenfd) (setup listenfd garbage) l t ∧
      Held s ∧ Refines listenfd handle s t := by
  have hstart : Held (.setup listenfd garbage tasks) ∧
      Refines listenfd handle (.setup listenfd garbage tasks) (setup listenfd garbage) :=
    ⟨setup_held listenfd garbage tasks, setup_refines listenfd handle garbage tasks⟩
  refine h.simulated (R := fun s t => Held s ∧ Refines listenfd handle s t) ?_ hstart
  intro s a s' t hst hstep
  have hs' := nextPooled_held hhandle hst.1 hstep
  rcases nextPooled_matched hhandle hst.1 hst.2 hstep with
    ⟨hnone, hkept⟩ | ⟨b, t', hb, hseen, hkept⟩
  · refine ⟨t, ?_, hs', hkept⟩
    rw [hnone]
    exact .refl t
  · refine ⟨t', ?_, hs', hkept⟩
    rw [← hseen]
    exact .single hb

end LinuxPrograms.EpollTcp
