import LinuxPrograms.C1000kClients

/-! Every run of the workers keeps clients and timers in correspondence. Besides the world, a run
keeps what `epoll_wait` reported and is still to be processed: distinct descriptors the worker
still has, since only their own events can close them. -/
namespace LinuxPrograms.C1000k
open Lib

theorem setupWorkerItem_orderfd (cfg : WorkerConfig) {w : ℕ} (hw : w ∈ cfg.channels) :
    (setupWorkerItem cfg (cfg.orderfd w)).IsOrder := by
  have hmem : cfg.orderfd w ∈ cfg.channels.map cfg.orderfd := List.mem_map_of_mem hw
  obtain ⟨h1, hlt⟩ := (cfg.mem_channels w).mp hw
  have hpeer : cfg.orderfd w ∉ cfg.channels.map cfg.peer := by
    intro hp
    obtain ⟨i, hi, heq⟩ := List.mem_map.mp hp
    obtain ⟨hi1, hilt⟩ := (cfg.mem_channels i).mp hi
    exact cfg.orderfd_ne_peer w i h1 hlt hi1 hilt heq.symm
  have hitem : setupItem cfg.toConfig (cfg.orderfd w) = FDITEM.new (cfg.orderfd w) := by
    unfold setupItem
    rw [if_neg (cfg.orderfd_ne_listenfd w h1 hlt), if_neg hpeer]
  unfold setupWorkerItem
  rw [if_pos hmem, hitem]
  exact ⟨rfl, rfl, rfl⟩

theorem setupWorkerItem_fd (cfg : WorkerConfig) (fd : ℕ) : (setupWorkerItem cfg fd).fd = fd := by
  have hitem : (setupItem cfg.toConfig fd).fd = fd := by
    unfold setupItem
    split
    · rfl
    · split <;> rfl
  unfold setupWorkerItem
  split
  · exact hitem
  · exact hitem

section Runs

variable [LinearOrder VoidPtr]

structure WorkersOk (cfg : WorkerConfig) (s : Workers) : Prop where
  world : WorldOk cfg s.toWorld
  pending : ∀ w evs, s.pc w = .batch evs →
    (evs.map (·.fd)).Nodup ∧ ∀ ev ∈ evs, ev.fd ∈ s.interest w

theorem mem_setup_interest {cfg : WorkerConfig} {others : ℕ → Bool} {w fd : ℕ} :
    fd ∈ (setupWorkers cfg others).interest w ↔ w ∈ cfg.channels ∧ fd = cfg.orderfd w := by
  by_cases hw : w ∈ cfg.channels <;> simp [setupWorkers, hw]

theorem setupWorkers_ok (cfg : WorkerConfig) (others : ℕ → Bool) :
    WorkersOk cfg (setupWorkers cfg others) := by
  have hclients : ∀ w, (setupWorkers cfg others).clients cfg w = [] := by
    intro w
    apply List.eq_nil_iff_forall_not_mem.mpr
    intro fd hfd
    obtain ⟨hmem, hne⟩ := WorldOk.mem_clients.mp hfd
    exact hne (mem_setup_interest.mp hmem).2
  refine ⟨⟨setupWorkerItem_fd cfg, fun w fd hfd => ?_, fun w w' fd hfd hfd' => ?_, fun w => ?_,
    fun w hw => ?_, fun w fd hfd => ?_, fun w => ?_⟩, fun w evs hpc => nomatch hpc⟩
  · obtain ⟨hw, rfl⟩ := mem_setup_interest.mp hfd
    have hopen : cfg.orderfd w ∈ cfg.channels.map cfg.orderfd := List.mem_map_of_mem hw
    simp only [setupWorkers, hopen, decide_true, Bool.or_true]
  · obtain ⟨hw, rfl⟩ := mem_setup_interest.mp hfd
    obtain ⟨hw', heq⟩ := mem_setup_interest.mp hfd'
    obtain ⟨h1, hlt⟩ := (cfg.mem_channels w).mp hw
    obtain ⟨h1', hlt'⟩ := (cfg.mem_channels w').mp hw'
    exact cfg.orderfd_inj w w' h1 hlt h1' hlt' heq
  · simp only [setupWorkers]
    split
    · exact List.nodup_singleton _
    · exact List.nodup_nil
  · obtain ⟨fd, hfd⟩ := List.exists_mem_of_ne_nil _ hw
    obtain ⟨hw, _⟩ := mem_setup_interest.mp hfd
    exact ⟨mem_setup_interest.mpr ⟨hw, rfl⟩, setupWorkerItem_orderfd cfg hw⟩
  · rw [hclients w] at hfd
    cases hfd
  · rw [hclients w]
    exact TIMER.Arms.empty

theorem nextWorkers_eq_some {s s' : Workers} {a : WorkerAct} :
    nextWorkers s a = some s' ↔ stepWorkers s a = .ok s' := by
  unfold nextWorkers
  cases stepWorkers s a <;> simp [Except.toOption]

/-- Moving one worker on keeps the others' batches. -/
theorem WorkersOk.goto {cfg : WorkerConfig} {s : Workers} (h : WorkersOk cfg s) (w : ℕ)
    {pc : WorkerPc} (hpc : ∀ evs, pc = .batch evs →
      (evs.map (·.fd)).Nodup ∧ ∀ ev ∈ evs, ev.fd ∈ s.interest w) : WorkersOk cfg (s.goto w pc) := by
  refine ⟨h.world, fun w' evs hw' => ?_⟩
  simp only [Workers.goto] at hw'
  by_cases heq : w' = w
  · subst heq
    rw [Function.update_self] at hw'
    exact hpc evs hw'
  · rw [Function.update_of_ne heq] at hw'
    exact h.pending w' evs hw'

/-- The world may change as long as the reported descriptors stay where they are. -/
theorem WorkersOk.setWorld {cfg : WorkerConfig} {s : Workers} (h : WorkersOk cfg s) {world : World}
    (hworld : WorldOk cfg world) (hkeep : ∀ w evs, s.pc w = .batch evs → ∀ ev ∈ evs,
      ev.fd ∈ world.interest w) : WorkersOk cfg { s with toWorld := world } :=
  ⟨hworld, fun w evs hpc => ⟨(h.pending w evs hpc).1, hkeep w evs hpc⟩⟩

theorem WorkersOk.event {cfg : WorkerConfig} {s : Workers} (h : WorkersOk cfg s) {w : ℕ}
    {ev : Event} {evs : List Event} {io : Io} {world : World} (hpc : s.pc w = .batch (ev :: evs))
    (hhand : HandedOver s (.event w io)) (hev : processOneEvent w io ev s.toWorld = .ok world) :
    WorkersOk cfg ({ s with toWorld := world }.goto w (.batch evs)) := by
  obtain ⟨hnodup, hmem⟩ := h.pending w _ hpc
  rw [List.map_cons, List.nodup_cons] at hnodup
  have hfd := hmem ev List.mem_cons_self
  obtain ⟨hworld, hkeep⟩ := h.world.processOneEvent hfd (fun i hi => (hhand i hi).2) hev
  -- first the worker moves on to the next event, then the world changes
  have hrest : WorkersOk cfg (s.goto w (.batch evs)) := by
    apply h.goto w
    intro evs' heq
    cases heq
    exact ⟨hnodup.2, fun ev' hev' => hmem ev' (List.mem_cons_of_mem _ hev')⟩
  apply hrest.setWorld hworld
  intro w' evs' hw' ev' hev'
  have hmem' := (hrest.pending w' evs' hw').2 ev' hev'
  apply hkeep w' ev'.fd _ hmem'
  intro heq
  -- another event on the same descriptor would be in the same worker's batch
  have hww : w' = w := h.world.disjoint w' w ev.fd (heq ▸ hmem') hfd
  subst hww
  simp only [Workers.goto, Function.update_self] at hw'
  cases hw'
  exact hnodup.1 (heq ▸ List.mem_map_of_mem hev')

/-- What a step of the workers keeps. -/
theorem WorkersOk.step {cfg : WorkerConfig} {s s' : Workers} {a : WorkerAct}
    (h : WorkersOk cfg s) (hhand : HandedOver s a) (hstep : nextWorkers s a = some s') :
    WorkersOk cfg s' := by
  rw [nextWorkers_eq_some] at hstep
  cases a with
  | epollWait w evs =>
    simp only [stepWorkers] at hstep
    split at hstep
    · split at hstep
      · rename_i hok
        cases hstep
        apply h.goto w
        intro evs' heq
        cases heq
        exact hok
      · cases hstep
    · cases hstep
  | event w io =>
    simp only [stepWorkers] at hstep
    split at hstep
    · rename_i ev evs hpc
      split at hstep
      · rename_i world hev
        cases hstep
        exact h.event hpc hhand hev
      · cases hstep
    · cases hstep
  | time w t =>
    simp only [stepWorkers] at hstep
    split at hstep
    · cases hstep
      exact h.goto w nofun
    · cases hstep
  | timer w len =>
    simp only [stepWorkers] at hstep
    split at hstep
    · split at hstep
      · rename_i world htask
        cases hstep
        obtain ⟨hworld, hinterest⟩ := h.world.timedTask htask
        apply h.setWorld hworld
        intro w' evs hpc ev hev
        rw [hinterest]
        exact (h.pending w' evs hpc).2 ev hev
      · cases hstep
        exact h.goto w nofun
      · cases hstep
    · cases hstep
  | openFd fd =>
    simp only [stepWorkers] at hstep
    split at hstep
    · cases hstep
      exact ⟨h.world.openFd fd, h.pending⟩
    · cases hstep

/-- In every run of the workers whose hand-overs are sound, each worker's timers are its clients,
one each; their callbacks are set; and a timer that fires is an open client's. -/
theorem timers_match_clients (cfg : WorkerConfig) (others : ℕ → Bool)
    (tr : List (Workers × WorkerAct)) (s : Workers)
    (h : Run nextWorkers (setupWorkers cfg others) tr s) (hhand : ∀ p ∈ tr, HandedOver p.1 p.2)
    (w : ℕ) :
    (s.clients cfg w).Nodup ∧
      ((s.timer w).timerArgTime.entries.map Prod.fst).Perm ((s.clients cfg w).map .item) ∧
      ((s.timer w).timerTimeArg.entries.map Prod.snd).Perm ((s.clients cfg w).map .item) ∧
      (∀ fd ∈ s.clients cfg w, s.opened fd = true ∧
        (s.gFDITEM fd).mTimeoutfun ≠ none ∧ (s.gFDITEM fd).mClosefun ≠ none) ∧
      (∀ len, stepWorkers s (.timer w len) ≠ .error .nullTimeoutfun) ∧
      ∀ t ptr T, (s.timer w).getTimer t = some (some ptr, T) →
        ∃ fd ∈ s.clients cfg w, ptr = .item fd := by
  have hok := h.invariant_of_steps (WorkersOk cfg) HandedOver
    (fun _ _ _ hs hhand hstep => hs.step hhand hstep) hhand (setupWorkers_ok cfg others)
  have hworld := hok.world
  obtain ⟨harg, htime⟩ := (hworld.armed w).perms
  refine ⟨(hworld.nodup w).filter _, harg, htime, fun fd hfd => ?_, fun len => ?_,
    fun t ptr T hget => ?_⟩
  · have hclient := hworld.client w fd hfd
    rw [hclient.timeoutfun, hclient.closefun]
    exact ⟨hworld.opened w fd (WorldOk.mem_clients.mp hfd).1, nofun, nofun⟩
  · simp only [stepWorkers]
    split
    · rename_i t hpc
      rcases hworld.timedTask_cases w t len with hnone | ⟨fd, _, T, _, _, hsome⟩
      · rw [hnone]
        exact nofun
      · rw [hsome]
        exact nofun
    · exact nofun
  · rcases (hworld.armed w).getTimer t with ⟨T', hnone⟩ | ⟨fd, hfd, T', hsome, _⟩
    · rw [hnone] at hget
      cases hget
    · rw [hsome] at hget
      cases hget
      exact ⟨fd, hfd, rfl⟩

end Runs

section OneClient

attribute [local instance] VoidPtr.order

def twoCpusWorkers : WorkerConfig where
  toConfig := twoCpus
  orderfd := fun i => 2*i+3
  orderfd_inj := by omega
  orderfd_ne_listenfd := by
    intro i h _ heq
    change 2*i+3 = 3 at heq
    omega
  orderfd_ne_peer := by
    intro i j _ _ _ _ heq
    change 2*i+3 = 2*j+2 at heq
    omega

/-- Worker 1 before its first round; descriptor 6 is open. -/
def oneClientStart : Workers := setupWorkers twoCpusWorkers (fun fd => decide (fd = 6))

/-- Its socketpair has become readable. -/
def oneClientReported : Workers := oneClientStart.goto 1 (.batch [⟨5, .inEt⟩])

/-- The four bytes of descriptor 6 arrive. -/
def oneClientIo : Io := ⟨[.data [6, 0, 0, 0] fun _ => 0], [], 0⟩

def oneClientRegistered : Workers := (nextWorkers oneClientReported (.event 1 oneClientIo)).get rfl

theorem oneClient_handedOver : HandedOver oneClientReported (.event 1 oneClientIo) := by
  intro fd hfd
  cases List.mem_singleton.mp (show fd ∈ [6] from hfd)
  refine ⟨rfl, fun w hw => ?_⟩
  obtain ⟨_, heq⟩ := mem_setup_interest.mp hw
  change 6 = 2*w+3 at heq
  omega

theorem timers_match_clients_one_client :
    oneClientRegistered.clients twoCpusWorkers 1 = [6] ∧
      ((oneClientRegistered.timer 1).timerArgTime.entries.map Prod.fst).Perm [.item 6] :=
  ⟨rfl, (timers_match_clients twoCpusWorkers (fun fd => decide (fd = 6))
    [(oneClientStart, .epollWait 1 [⟨5, .inEt⟩]), (oneClientReported, .event 1 oneClientIo)]
    oneClientRegistered (.cons rfl (.single (Option.some_get _).symm))
    (by
      intro p hp
      rcases List.mem_pair.mp hp with rfl | rfl
      · trivial
      · exact oneClient_handedOver) 1).2.1⟩

end OneClient

end LinuxPrograms.C1000k
