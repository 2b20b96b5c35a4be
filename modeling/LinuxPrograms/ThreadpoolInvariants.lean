import LinuxPrograms.ThreadpoolTasks

/-! What holds of the thread pool in every state: its threads, the call that shuts it down, the
workers that leave, and those that sleep. -/
namespace LinuxPrograms.Threadpool
open Lib

variable {s s' s₀ s₁ : State} {a : Act} {pool pool' : Pool} {t : Task} {size : ℕ}
variable {n q : ℤ} {garbage : ℕ → Task}

/-! How many workers there are. -/

def WorkerPc.active : WorkerPc → Bool
  | .leaving | .exited => false
  | _ => true

/-- How many of `size` threads have been started. -/
def Creator.Hired (size hired : ℕ) : Creator → Prop
  | .starting left => hired+left = size
  | .returned => hired = size
  | .failed => hired < size

structure Staffed (size : ℕ) (s : State) : Prop where
  count : s.pool.threadCount = s.workers.length
  started : s.pool.started = s.workers.countP WorkerPc.active
  hired : s.creator.Hired size s.workers.length

theorem put_eq (h : pool.put t = some pool') :
    pool' = { pool with
      queue := pool.queue.set pool.tail t
      tail := pool.wrap pool.tail
      count := pool.count+1 } := by
  unfold Pool.put at h
  split at h <;> cases h
  rfl

theorem grab_eq (h : pool.grab = some (t, pool')) :
    pool' = { pool with head := pool.wrap pool.head, count := pool.count-1 } := by
  obtain ⟨t', -, heq⟩ := Option.map_eq_some_iff.mp h
  cases heq
  rfl

theorem WorkerMove.started {pc pc' : WorkerPc} (h : WorkerMove s pc pc' s₁) :
    s₁.pool.started+pc.active.toNat = s.pool.started+pc'.active.toNat ∧
      s₁.pool.threadCount = s.pool.threadCount ∧ s₁.creator = s.creator := by
  cases h with
  | leave => exact ⟨(Int.sub_add_cancel s.pool.started 1).trans (Int.add_zero _).symm, rfl, rfl⟩
  | grab _ _ hgrab =>
    rw [grab_eq hgrab]
    exact ⟨rfl, rfl, rfl⟩
  | _ => exact ⟨rfl, rfl, rfl⟩

theorem CallMove.started {k : ℕ} {pc pc' : CallPc} (h : CallMove s k pc pc' s₁) :
    s₁.pool.started = s.pool.started ∧ s₁.pool.threadCount = s.pool.threadCount ∧
      s₁.creator = s.creator ∧ s₁.workers.length = s.workers.length := by
  cases h with
  | put _ hput =>
    rw [put_eq hput]
    exact ⟨rfl, rfl, rfl, rfl⟩
  | signal => exact ⟨rfl, rfl, rfl, List.length_set⟩
  | broadcast => exact ⟨rfl, rfl, rfl, List.length_map _⟩
  | _ => exact ⟨rfl, rfl, rfl, rfl⟩

theorem Step.staffed (h : Step s s') (hs : Staffed size s) : Staffed size s' := by
  obtain ⟨hcount, hstarted, hhired⟩ := hs
  cases h with
  | @start left hc =>
    rw [hc] at hhired
    refine ⟨?_, ?_, ?_⟩
    · change s.pool.threadCount+1 = (s.workers ++ [WorkerPc.lock]).length
      rw [hcount, List.length_append, List.length_singleton]
    · change s.pool.started+1 = _
      rw [countP_concat, hstarted]
      rfl
    · change (s.workers ++ [WorkerPc.lock]).length+left = size
      rw [List.length_append, List.length_singleton, Nat.add_assoc, Nat.add_comm 1 left]
      exact hhired
  | @startFailed left hc =>
    rw [hc] at hhired
    refine ⟨hcount, hstarted, ?_⟩
    exact Nat.lt_of_lt_of_eq (Nat.lt_add_of_pos_right left.succ_pos) hhired
  | created hc =>
    rw [hc] at hhired
    exact ⟨hcount, hstarted, hhired⟩
  | enter => exact ⟨hcount, hstarted, hhired⟩
  | @worker i pc pc' s₁ hi hmove =>
    obtain ⟨hlocal, hthreads, hcreator⟩ := hmove.started
    have hset := countP_set WorkerPc.active hi pc'
    refine ⟨?_, ?_, ?_⟩
    · change s₁.pool.threadCount = (s₁.workers.set i pc').length
      rw [hthreads, hcount, List.length_set, hmove.workers]
    · change s₁.pool.started = ((s₁.workers.set i pc').countP WorkerPc.active : ℕ)
      rw [hmove.workers]
      omega
    · change s₁.creator.Hired size (s₁.workers.set i pc').length
      rw [hcreator, hmove.workers, List.length_set]
      exact hhired
  | @call k pc pc' s₁ hk hmove =>
    obtain ⟨hstarted', hthreads, hcreator, hlength⟩ := hmove.started
    refine ⟨?_, ?_, ?_⟩
    · change s₁.pool.threadCount = s₁.workers.length
      rw [hthreads, hcount, hlength]
    · change s₁.pool.started = (s₁.workers.countP WorkerPc.active : ℕ)
      rw [hstarted', hmove.countP_workers rfl, hstarted]
    · change s₁.creator.Hired size s₁.workers.length
      rw [hcreator, hlength]
      exact hhired

theorem setup_staffed {n q : ℕ} : Staffed n (setup n q garbage) := ⟨rfl, rfl, Nat.zero_add n⟩

/-! The call that shuts the pool down. -/

theorem shutdownFor_ne_none (flags : BitVec 32) : shutdownFor flags ≠ .none := by
  unfold shutdownFor
  split <;> exact fun h => by cases h

theorem WorkerMove.shutdown {pc pc' : WorkerPc} (h : WorkerMove s pc pc' s₁) :
    s₁.pool.shutdown = s.pool.shutdown := by
  cases h with
  | grab _ _ hgrab => rw [grab_eq hgrab]
  | _ => rfl

theorem CallMove.shutdown {k : ℕ} {pc pc' : CallPc} (h : CallMove s k pc pc' s₁)
    (hshut : s.pool.shutdown ≠ .none) : s₁.pool.shutdown = s.pool.shutdown := by
  cases h with
  | put _ hput => rw [put_eq hput]
  | shut hnone => exact (hshut hnone).elim
  | _ => rfl

/-- Nothing turns a shutdown off, or makes another one of it. -/
theorem Step.shutdown (h : Step s s') (hshut : s.pool.shutdown ≠ .none) :
    s'.pool.shutdown = s.pool.shutdown := by
  cases h with
  | worker hi hmove => exact hmove.shutdown
  | call hk hmove => exact hmove.shutdown hshut
  | _ => rfl

/-- The call has shut the pool down. -/
def CallPc.wins : CallPc → Bool
  | .destroyBroadcast | .destroyUnlock | .joining _ => true
  | .destroyReturned err => err ≠ threadpoolShutdown
  | _ => false

/-- One call shuts the pool down. -/
def State.Won (s : State) : Prop :=
  s.calls.countP CallPc.wins = (decide (s.pool.shutdown ≠ .none)).toNat

theorem Entry.not_wins {pc : CallPc} (h : Entry pc) : pc.wins = false := by
  cases h <;> rfl

theorem CallMove.won {k : ℕ} {pc pc' : CallPc} (h : CallMove s k pc pc' s₁) :
    pc'.wins.toNat+(decide (s.pool.shutdown ≠ .none)).toNat =
      pc.wins.toNat+(decide (s₁.pool.shutdown ≠ .none)).toNat := by
  cases h with
  | put _ hput =>
    rw [put_eq hput]
    rfl
  | @shut flags hnone =>
    have hshut : decide (shutdownFor flags ≠ .none) = true :=
      decide_eq_true (shutdownFor_ne_none flags)
    dsimp only
    rw [hnone, hshut]
    rfl
  | _ => rfl

theorem Step.won (h : Step s s') (hs : s.Won) : s'.Won := by
  unfold State.Won at hs ⊢
  cases h with
  | startFailed =>
    rw [countP_concat]
    exact hs
  | enter _ hpc =>
    rw [countP_concat, hpc.not_wins]
    exact hs
  | @worker i pc pc' s₁ hi hmove =>
    change s₁.calls.countP CallPc.wins = (decide (s₁.pool.shutdown ≠ .none)).toNat
    rw [hmove.calls, hmove.shutdown]
    exact hs
  | @call k pc pc' s₁ hk hmove =>
    have hset := countP_set CallPc.wins hk pc'
    have hlocal := hmove.won
    change (s₁.calls.set k pc').countP CallPc.wins = (decide (s₁.pool.shutdown ≠ .none)).toNat
    rw [hmove.calls]
    omega
  | _ => exact hs

/-! Joining the workers. -/

theorem WorkerMove.not_exited {pc pc' : WorkerPc} (h : WorkerMove s pc pc' s₁) : pc ≠ .exited := by
  cases h <;> exact fun h => by cases h

theorem CallMove.exited {k j : ℕ} {pc pc' : CallPc} (h : CallMove s k pc pc' s₁)
    (hj : s.workers[j]? = some .exited) : s₁.workers[j]? = some .exited := by
  cases h with
  | @signal i hi =>
    have hne : i ≠ j := by
      rintro rfl
      rw [hi] at hj
      cases hj
    exact (List.getElem?_set_ne hne).trans hj
  | broadcast => rw [List.getElem?_map, hj]; rfl
  | _ => exact hj

theorem Step.exited {j : ℕ} (h : Step s s') (hj : s.workers[j]? = some .exited) :
    s'.workers[j]? = some .exited := by
  cases h with
  | start => exact (List.getElem?_append_left (List.getElem?_eq_some_iff.mp hj).1).trans hj
  | @worker i pc pc' s₁ hi hmove =>
    have hne : i ≠ j := by
      rintro rfl
      rw [hi] at hj
      cases hj
      exact hmove.not_exited rfl
    change (s₁.workers.set i pc')[j]? = _
    rw [hmove.workers, List.getElem?_set_ne hne, hj]
  | call hk hmove => exact hmove.exited hj
  | _ => exact hj

/-- What is known of a place of `threadpool_destroy`: the workers it has joined have left. -/
def CallPc.Joined (s : State) : CallPc → Prop
  | .joining i => ∀ j < i, s.workers[j]? = some .exited
  | .destroyReturned err => err = threadpoolShutdown ∨ err = 0 ∧ s.freed = true
  | _ => True

theorem Step.freed (h : Step s s') (hfreed : s.freed = true) : s'.freed = true := by
  cases h with
  | worker hi hmove => cases hmove <;> exact hfreed
  | call hk hmove => cases hmove <;> first | exact hfreed | rfl
  | _ => exact hfreed

theorem CallPc.Joined.kept {pc : CallPc} (hpc : pc.Joined s) (h : Step s s') : pc.Joined s' := by
  cases pc with
  | joining i => exact fun j hj => h.exited (hpc j hj)
  | destroyReturned err => exact hpc.imp_right fun hpc => ⟨hpc.1, h.freed hpc.2⟩
  | _ => trivial

theorem Entry.joined {pc : CallPc} (h : Entry pc) : pc.Joined s := by
  cases h <;> trivial

theorem Staffed.exited_of_joined {i : ℕ} (hs : Staffed size s) (hi : s.pool.threadCount ≤ i)
    (hjoined : ∀ j < i, s.workers[j]? = some .exited) : ∀ pc ∈ s.workers, pc = .exited := by
  intro pc hpc
  obtain ⟨j, hj⟩ := List.mem_iff_getElem?.mp hpc
  have hlt := (List.getElem?_eq_some_iff.mp hj).1
  rw [hjoined j (by rw [hs.count] at hi; omega)] at hj
  cases hj
  rfl

/-- When all have left, `threadpool_free` does not give up. -/
theorem Staffed.started_of_joined {i : ℕ} (hs : Staffed size s) (hi : s.pool.threadCount ≤ i)
    (hjoined : ∀ j < i, s.workers[j]? = some .exited) : s.pool.started = 0 := by
  rw [hs.started, Int.natCast_eq_zero, List.countP_eq_zero]
  intro pc hpc
  rw [hs.exited_of_joined hi hjoined pc hpc]
  exact Bool.false_ne_true

theorem CallMove.joined {k : ℕ} {pc pc' : CallPc} (h : CallMove s k pc pc' s₁)
    (hs : Staffed size s) (hpc : pc.Joined s) : pc'.Joined (s₁.moveCall k pc') := by
  cases h with
  | again => exact .inl rfl
  | destroyUnlock => exact fun j hj => (Nat.not_lt_zero j hj).elim
  | join hi hexit =>
    intro j hj
    rcases Nat.lt_succ_iff_lt_or_eq.mp hj with hj | rfl
    · exact hpc j hj
    · exact hexit
  | giveUp hi hstarted =>
    have hzero := hs.started_of_joined hi hpc
    omega
  | free => exact .inr ⟨rfl, rfl⟩
  | _ => trivial

theorem Step.joined (h : Step s s') (hstaff : Staffed size s) (hs : ∀ pc ∈ s.calls, pc.Joined s) :
    ∀ pc ∈ s'.calls, pc.Joined s' := by
  have hkept : ∀ pc ∈ s.calls, pc.Joined s' := fun pc hpc => (hs pc hpc).kept h
  cases h with
  | startFailed =>
    intro pc hpc
    rcases List.mem_append.mp hpc with hpc | hpc
    · exact hkept pc hpc
    · cases List.mem_singleton.mp hpc
      trivial
  | enter _ hentry =>
    intro pc hpc
    rcases List.mem_append.mp hpc with hpc | hpc
    · exact hkept pc hpc
    · cases List.mem_singleton.mp hpc
      exact hentry.joined
  | worker hi hmove =>
    dsimp only [State.moveWorker]
    rw [hmove.calls]
    exact hkept
  | call hk hmove =>
    dsimp only [State.moveCall]
    rw [hmove.calls]
    exact forall_mem_set hkept (hmove.joined hstaff (hs _ (List.mem_of_getElem? hk)))
  | _ => exact hkept

/-! Leaving. -/

theorem Pool.Breaks.shut (h : pool.Breaks) : pool.shutdown ≠ .none := by
  rcases h with h | ⟨h, -⟩ <;> rw [h] <;> exact fun h => by cases h

/-- Once a worker may leave, it always may. -/
theorem Step.breaks (h : Step s s') (hs : s.pool.Breaks) : s'.pool.Breaks := by
  cases h with
  | worker hi hmove =>
    cases hmove with
    | grab _ hbreak => exact (hbreak hs).elim
    | _ => exact hs
  | call hk hmove =>
    have hshut := hs.shut
    cases hmove with
    | put hrefuse =>
      unfold Pool.refuses at hrefuse
      rw [if_pos hshut] at hrefuse
      split at hrefuse <;> cases hrefuse
    | shut hnone => exact (hshut hnone).elim
    | _ => exact hs
  | _ => exact hs

/-- A worker leaves only a pool that is shut down, and one that is shut down gracefully only when
no task waits. -/
def State.Left (s : State) : Prop := ∀ pc ∈ s.workers, pc.active = false → s.pool.Breaks

theorem woken_active (pc : WorkerPc) : pc.woken.active = pc.active := by
  cases pc <;> rfl

theorem WorkerMove.left {pc pc' : WorkerPc} (h : WorkerMove s pc pc' s₁) (hpc' : pc'.active = false)
    (hs : pc.active = false → s.pool.Breaks) : s.pool.Breaks := by
  cases h with
  | leave _ hbreak => exact hbreak
  | exit => exact hs rfl
  | _ => cases hpc'

theorem Step.left (h : Step s s') (hs : s.Left) : s'.Left := by
  have hkept : ∀ pc ∈ s.workers, pc.active = false → s'.pool.Breaks :=
    fun pc hpc hleft => h.breaks (hs pc hpc hleft)
  have hbreaks := h.breaks
  unfold State.Left
  cases h with
  | start =>
    intro pc hpc hleft
    rcases List.mem_append.mp hpc with hpc | hpc
    · exact hkept pc hpc hleft
    · cases List.mem_singleton.mp hpc
      cases hleft
  | worker hi hmove =>
    dsimp only [State.moveWorker]
    rw [hmove.workers]
    exact forall_mem_set hkept fun hleft =>
      hbreaks (hmove.left hleft (hs _ (List.mem_of_getElem? hi)))
  | call hk hmove =>
    cases hmove with
    | signal hi => exact forall_mem_set hkept fun hleft => by cases hleft
    | broadcast =>
      intro pc hpc hleft
      obtain ⟨pc, hmem, rfl⟩ := List.mem_map.mp hpc
      rw [woken_active] at hleft
      exact hkept pc hmem hleft
    | _ => exact hkept
  | _ => exact hkept

/-! Sleeping. -/

def WorkerPc.sleeps : WorkerPc → Bool
  | .waiting => true
  | _ => false

/-- The worker looks at the queue before it sleeps again. -/
def WorkerPc.alert : WorkerPc → Bool
  | .lock | .check => true
  | _ => false

def CallPc.signals : CallPc → Bool
  | .addSignal => true
  | _ => false

def CallPc.broadcasts : CallPc → Bool
  | .destroyBroadcast => true
  | _ => false

/-- While the pool works, a worker sleeps only if the others, and those about to be woken, are
enough for the tasks that wait. -/
def State.Attended (s : State) : Prop :=
  s.workers.countP WorkerPc.sleeps = 0 ∨
    s.pool.count ≤ s.workers.countP WorkerPc.alert+s.calls.countP CallPc.signals

theorem WorkerMove.attended {pc pc' : WorkerPc} (h : WorkerMove s pc pc' s₁) :
    s₁.pool.count = 0 ∨ s.pool.Breaks ∨
      s₁.pool.count+pc.alert.toNat ≤ s.pool.count+pc'.alert.toNat ∧
        pc'.sleeps.toNat ≤ pc.sleeps.toNat := by
  cases h with
  | wait hwait => exact .inl hwait.1
  | leave _ hbreak => exact .inr (.inl hbreak)
  | grab _ _ hgrab =>
    rw [grab_eq hgrab]
    refine .inr (.inr ⟨?_, Nat.le_refl _⟩)
    change s.pool.count-1+1 ≤ s.pool.count+0
    omega
  | _ =>
    refine .inr (.inr ?_)
    dsimp only [WorkerPc.alert, WorkerPc.sleeps, Bool.toNat, cond]
    omega

theorem CallMove.attended {k : ℕ} {pc pc' : CallPc} (h : CallMove s k pc pc' s₁) :
    s₁.workers.countP WorkerPc.sleeps = 0 ∨
      s₁.pool.count+s.workers.countP WorkerPc.alert+pc.signals.toNat ≤
          s.pool.count+s₁.workers.countP WorkerPc.alert+pc'.signals.toNat ∧
        s₁.workers.countP WorkerPc.sleeps ≤ s.workers.countP WorkerPc.sleeps ∧
        pc.broadcasts.toNat ≤ pc'.broadcasts.toNat := by
  cases h with
  | @put t pool hrefuse hput =>
    rw [put_eq hput]
    refine .inr ⟨?_, Nat.le_refl _, Nat.le_refl _⟩
    change s.pool.count+1+(s.workers.countP WorkerPc.alert : ℕ)+0 ≤
      s.pool.count+(s.workers.countP WorkerPc.alert : ℕ)+1
    omega
  | signalNobody hnobody =>
    refine .inl (List.countP_eq_zero.mpr fun pc hpc => ?_)
    cases pc with
    | waiting => exact (hnobody hpc).elim
    | _ => exact Bool.false_ne_true
  | signal hi =>
    have halert := countP_set WorkerPc.alert hi .lock
    have hsleeps := countP_set WorkerPc.sleeps hi .lock
    dsimp only [WorkerPc.alert, WorkerPc.sleeps, Bool.toNat, cond] at halert hsleeps
    refine .inr ⟨?_, ?_, Nat.le_refl _⟩ <;>
      dsimp only [State.moveWorker, CallPc.signals, Bool.toNat, cond] <;> omega
  | broadcast =>
    refine .inl (List.countP_eq_zero.mpr fun pc hpc => ?_)
    obtain ⟨pc, -, rfl⟩ := List.mem_map.mp hpc
    cases pc <;> exact Bool.false_ne_true
  | _ =>
    refine .inr ?_
    dsimp only [CallPc.signals, CallPc.broadcasts, Bool.toNat, cond]
    omega

theorem Entry.idle {pc : CallPc} (h : Entry pc) : pc.signals = false ∧ pc.broadcasts = false := by
  cases h <;> exact ⟨rfl, rfl⟩

theorem Step.attended (h : Step s s') (hshut : s.pool.shutdown = .none) (hs : s.Attended) :
    s'.Attended := by
  unfold State.Attended at hs ⊢
  cases h with
  | start =>
    rw [countP_concat, countP_concat]
    change s.workers.countP WorkerPc.sleeps = 0 ∨
      s.pool.count ≤ (s.workers.countP WorkerPc.alert+1 : ℕ)+s.calls.countP CallPc.signals
    omega
  | startFailed =>
    rw [countP_concat]
    exact hs
  | created => exact hs
  | enter _ hpc =>
    rw [countP_concat, hpc.idle.1]
    exact hs
  | @worker i pc pc' s₁ hi hmove =>
    have halert := countP_set WorkerPc.alert hi pc'
    have hsleeps := countP_set WorkerPc.sleeps hi pc'
    dsimp only [State.moveWorker]
    rw [hmove.workers, hmove.calls]
    rcases hmove.attended with hzero | hbreak | ⟨hcount, hsleep⟩
    · exact .inr (by omega)
    · exact (hbreak.shut hshut).elim
    · omega
  | @call k pc pc' s₁ hk hmove =>
    have hsignals := countP_set CallPc.signals hk pc'
    dsimp only [State.moveCall]
    rw [hmove.calls]
    rcases hmove.attended with hzero | ⟨hcount, hsleep, -⟩
    · exact .inl hzero
    · omega

/-- Once a shutdown is announced, nobody sleeps. -/
def State.Awake (s : State) : Prop :=
  s.calls.countP CallPc.broadcasts = 0 → s.workers.countP WorkerPc.sleeps = 0

theorem WorkerMove.sleeps {pc pc' : WorkerPc} (h : WorkerMove s pc pc' s₁)
    (hshut : s.pool.shutdown ≠ .none) : pc'.sleeps.toNat ≤ pc.sleeps.toNat := by
  cases h with
  | wait hwait => exact (hshut hwait.2).elim
  | _ => exact Nat.zero_le _

theorem CallMove.broadcast_of_shut {k : ℕ} {pc pc' : CallPc} (h : CallMove s k pc pc' s₁)
    (hbefore : s.pool.shutdown = .none) (hafter : s₁.pool.shutdown ≠ .none) :
    pc.broadcasts = false ∧ pc'.broadcasts = true := by
  cases h with
  | put _ hput =>
    rw [put_eq hput] at hafter
    exact (hafter hbefore).elim
  | shut => exact ⟨rfl, rfl⟩
  | _ => exact (hafter hbefore).elim

theorem Step.awake (h : Step s s') (hs : s.pool.shutdown ≠ .none → s.Awake)
    (hshut : s'.pool.shutdown ≠ .none) : s'.Awake := by
  unfold State.Awake at hs ⊢
  cases h with
  | start =>
    rw [countP_concat]
    exact hs hshut
  | startFailed =>
    rw [countP_concat]
    exact hs hshut
  | created => exact hs hshut
  | enter _ hpc =>
    rw [countP_concat, hpc.idle.2]
    exact hs hshut
  | @worker i pc pc' s₁ hi hmove =>
    have hsleeps := countP_set WorkerPc.sleeps hi pc'
    dsimp only [State.moveWorker] at hshut ⊢
    rw [hmove.shutdown] at hshut
    have hsleep := hmove.sleeps hshut
    rw [hmove.workers, hmove.calls]
    intro hnone
    have hnobody := hs hshut hnone
    omega
  | @call k pc pc' s₁ hk hmove =>
    have hset := countP_set CallPc.broadcasts hk pc'
    dsimp only [State.moveCall] at hshut ⊢
    rw [hmove.calls]
    intro hnone
    by_cases hbefore : s.pool.shutdown = .none
    -- the call that shuts the pool down has yet to wake the workers
    · obtain ⟨hpc, hpc'⟩ := hmove.broadcast_of_shut hbefore hshut
      rw [hpc, hpc', Bool.toNat_false, Bool.toNat_true] at hset
      omega
    · rcases hmove.attended with hzero | ⟨-, hsleep, hbroadcast⟩
      · exact hzero
      · have hnobody := hs hbefore (by omega)
        omega

/-! The rest. -/

/-- The call asks for a shutdown. -/
def CallPc.asks : CallPc → Bool
  | .destroyLock _ | .destroyTest _ => true
  | _ => false

/-- When a thread could not be started, the others are told to leave. -/
def State.Dismissed (s : State) : Prop :=
  s.creator = .failed → 0 < s.calls.countP CallPc.asks ∨ s.pool.shutdown ≠ .none

theorem CallMove.asks {k : ℕ} {pc pc' : CallPc} (h : CallMove s k pc pc' s₁) :
    pc.asks.toNat ≤ pc'.asks.toNat ∨ s₁.pool.shutdown ≠ .none := by
  cases h with
  | again hshut => exact .inr hshut
  | shut => exact .inr (shutdownFor_ne_none _)
  | _ => exact .inl (Nat.le_refl _)

theorem Step.dismissed (h : Step s s') (hs : s.Dismissed) : s'.Dismissed := by
  intro hfailed
  have hshut := h.shutdown
  cases h with
  | start => cases hfailed
  | startFailed =>
    left
    rw [countP_concat]
    exact Nat.succ_pos _
  | created => cases hfailed
  | enter hc =>
    rw [hc] at hfailed
    cases hfailed
  | worker hi hmove =>
    dsimp only [State.moveWorker] at hfailed ⊢
    rw [hmove.started.2.2] at hfailed
    rw [hmove.calls, hmove.shutdown]
    exact hs hfailed
  | @call k pc pc' s₁ hk hmove =>
    have hset := countP_set CallPc.asks hk pc'
    dsimp only [State.moveCall] at hfailed hshut ⊢
    rw [hmove.started.2.2.1] at hfailed
    rw [hmove.calls]
    rcases hmove.asks with hasks | hafter
    · rcases hs hfailed with hpos | hbefore
      · exact .inl (by omega)
      · rw [hshut hbefore]
        exact .inr hbefore
    · exact .inr hafter

/-- A pool is freed when all have left and the mutex is free. -/
def State.Closed (s : State) : Prop :=
  s.freed = true → s.locked = false ∧ ∀ pc ∈ s.workers, pc = .exited

theorem Step.closed (h : Step s s') (hfreed : s.freed = false) (hstaff : Staffed size s)
    (hjoined : ∀ pc ∈ s.calls, pc.Joined s) : s'.Closed := by
  have hopen {s' : State} (hs' : s'.freed = s.freed) : s'.Closed := by
    intro h
    rw [hs', hfreed] at h
    cases h
  cases h with
  | worker hi hmove => cases hmove <;> exact hopen rfl
  | call hk hmove =>
    cases hmove with
    | free hi _ hfree =>
      exact fun _ => ⟨hfree, hstaff.exited_of_joined hi (hjoined _ (List.mem_of_getElem? hk))⟩
    | _ => exact hopen rfl
  | _ => exact hopen rfl

/-- All of it. -/
structure Sound (threads size : ℕ) (s : State) : Prop where
  mutex : s.Mutex
  accounted : ∃ pending, Accounted size s pending
  staffed : Staffed threads s
  won : s.Won
  joined : ∀ pc ∈ s.calls, pc.Joined s
  left : s.Left
  attended : s.pool.shutdown = .none → s.Attended
  awake : s.pool.shutdown ≠ .none → s.Awake
  dismissed : s.Dismissed
  closed : s.Closed

theorem Sound.step {threads : ℕ} (hs : Sound threads size s) (hfreed : s.freed = false)
    (h : Step s s') : Sound threads size s' where
  mutex := h.mutex hs.mutex
  accounted := h.accounted hs.accounted
  staffed := h.staffed hs.staffed
  won := h.won hs.won
  joined := h.joined hs.staffed hs.joined
  left := h.left hs.left
  attended := by
    intro hshut
    have hbefore : s.pool.shutdown = .none := by
      by_contra hbefore
      rw [h.shutdown hbefore] at hshut
      exact hbefore hshut
    exact h.attended hbefore (hs.attended hbefore)
  awake := h.awake hs.awake
  dismissed := h.dismissed hs.dismissed
  closed := h.closed hfreed hs.staffed hs.joined

theorem setup_sound {n q : ℕ} (hq : 0 < q) : Sound n q (setup n q garbage) where
  mutex := rfl
  accounted := ⟨[], setup_accounted hq⟩
  staffed := setup_staffed
  won := rfl
  joined := fun _ h => (List.not_mem_nil h).elim
  left := fun _ h => (List.not_mem_nil h).elim
  attended := fun _ => .inl rfl
  awake := fun _ _ => rfl
  dismissed := fun h => by cases h
  closed := fun h => by cases h

theorem reachable_sound (hcreate : threadpoolCreate n q garbage = some s₀)
    (hreach : Reachable next s₀ s) : 0 < n.toNat ∧ Sound n.toNat q.toNat s := by
  obtain ⟨hn, -, hq, -, rfl⟩ := threadpoolCreate_eq hcreate
  exact ⟨by omega, hreach.invariant (fun s a s' hs h => hs.step (next_step h).1 (next_step h).2)
    (setup_sound (by omega))⟩

end LinuxPrograms.Threadpool
