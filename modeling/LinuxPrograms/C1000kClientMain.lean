import LinuxPrograms.C1000kClientLoop

/-! The main thread of the c1000k client (client/src/main.cc): it opens its connections and then
serves what epoll reports of them. A connection is closed exactly when its end is reported. -/
namespace LinuxPrograms.C1000k.Client
open Lib

def maxEpollEvent : ℕ := 10000

section Main

variable [LinearOrder VoidPtr]

/-- The connections still to be opened, and what epoll has reported and is not processed yet. -/
structure Main [LinearOrder VoidPtr] where
  loop : EventLoop
  left : ℕ
  batch : List Event

/-- The descriptors that are open at the start are not connections. -/
def bootMain (num : ℕ) (opened : ℕ → Bool) : Main where
  loop :=
    { gFdProcess := fun _ => ⟨none, none, none⟩
      opened := opened
      interest := []
      mActiveclose := fun _ => false
      timerlink := .empty }
  left := num
  batch := []

/-- `Simconnect` has given `fd`, which is added to epoll and gets its functions. -/
def EventLoop.connected (s : EventLoop) (fd : ℕ) : EventLoop :=
  { s with
    gFdProcess := Function.update s.gFdProcess fd
      ⟨some .clientReadfun, some .clientWritefun, some .clientClosefun⟩
    opened := Function.update s.opened fd true
    interest := s.interest ++ [fd] }

inductive MainAct
  | connect (clientfd : Option ℕ)
  | wait (events : List Event)
  | event (reads : List ℤ)

/-- What `epoll_wait` can return: each descriptor once. -/
def EventLoop.Reports (s : EventLoop) (events : List Event) : Prop :=
  events.length ≤ maxEpollEvent ∧ (events.map Event.fd).Nodup ∧ ∀ ev ∈ events, ev.fd ∈ s.interest

instance (s : EventLoop) (events : List Event) : Decidable (s.Reports events) := by
  unfold EventLoop.Reports
  infer_instance

/-- `Simconnect` gives a descriptor that was free and is below `MAX_FD`, or it fails and leaves none
open. With no timers `get_timer` finds nothing. -/
def nextMain (s : Main) : MainAct → Option Main
  | .connect clientfd =>
    match s.left, clientfd with
    | left+1, some fd =>
      if fd = 0 ∨ maxFd ≤ fd ∨ s.loop.opened fd then none
      else some { s with loop := s.loop.connected fd, left := left }
    | left+1, none => some { s with left := left }
    | 0, _ => none
  | .wait events =>
    if s.left = 0 ∧ s.batch = [] ∧ s.loop.Reports events then some { s with batch := events }
    else none
  | .event reads =>
    match s.batch with
    | [] => none
    | ev :: batch =>
      match processOneEvent reads ev s.loop with
      | .ok loop => some { s with loop := loop, batch := batch }
      | .error _ => none

/-! One event. -/

/-- `read` returns 0 before it fails. -/
def readsEnd (reads : List ℤ) : Bool :=
  reads.find? (fun len => len = 0 || len = -1) = some 0

/-- The end of the connection is reported, or read. -/
def Gone (reads : List ℤ) (ev : Events) : Prop :=
  ev.epollrdhup = true ∨ (ev.epollin = true ∧ readsEnd reads = true)

instance (reads : List ℤ) (ev : Events) : Decidable (Gone reads ev) := by
  unfold Gone
  infer_instance

variable {s : EventLoop} {fd : ℕ} {reads : List ℤ}

theorem clientReadfun_eq (fd : ℕ) (reads : List ℤ) (s : EventLoop) :
    clientReadfun fd reads s =
      if readsEnd reads then (-1, s.setActiveclose fd) else (1, s) := by
  induction reads with
  | nil => rfl
  | cons len reads ih =>
    unfold clientReadfun readsEnd
    by_cases hfail : len = -1
    · subst hfail
      rfl
    · by_cases hzero : len = 0
      · subst hzero
        rfl
      · rw [if_neg hfail, if_neg hzero, ih, List.find?_cons_of_neg (by simp [hfail, hzero])]
        rfl

theorem setActiveclose_twice (s : EventLoop) (fd : ℕ) :
    (s.setActiveclose fd).setActiveclose fd = s.setActiveclose fd := by
  unfold EventLoop.setActiveclose
  dsimp only
  rw [Function.update_idem]

theorem init_setActiveclose (s : EventLoop) (fd : ℕ) :
    (s.setActiveclose fd).init fd = s.init fd := by
  unfold EventLoop.setActiveclose EventLoop.init
  dsimp only
  rw [Function.update_idem]

/-- A connection that works. -/
structure Serves (s : EventLoop) (fd : ℕ) : Prop where
  funs : s.gFdProcess fd = ⟨some .clientReadfun, some .clientWritefun, some .clientClosefun⟩
  open' : s.mActiveclose fd = false
  timers : s.timerlink = .empty

theorem readStage_eq (hs : Serves s fd) (reported : Bool) :
    callStage reads (·.mReadfun) reported fd s =
      if reported = true ∧ readsEnd reads = true then s.setActiveclose fd else s := by
  unfold callStage
  cases reported with
  | false => rw [if_neg fun h => Bool.false_ne_true h.2, if_neg fun h => Bool.false_ne_true h.1]
  | true =>
    rw [if_pos ⟨hs.open', rfl⟩, hs.funs]
    dsimp only
    rw [callFun, clientReadfun_eq]
    by_cases hend : readsEnd reads = true
    · rw [if_pos hend]
      dsimp only
      rw [if_pos (show (-1 : ℤ) < 0 by decide), if_pos ⟨rfl, hend⟩]
      exact setActiveclose_twice s fd
    · rw [if_neg hend]
      dsimp only
      rw [if_neg (show ¬(1 : ℤ) < 0 by decide), if_neg fun h => hend h.2]

/-- The write function does nothing. -/
theorem writeStage_eq (reported : Bool)
    (hfuns : (s.gFdProcess fd).mWritefun = some .clientWritefun) :
    callStage reads (·.mWritefun) reported fd s = s := by
  unfold callStage
  split
  · dsimp only
    rw [hfuns]
    exact if_neg (show ¬(1 : ℤ) < 0 by decide)
  · rfl

theorem beforeClose_eq (ev : Event) (hs : Serves s ev.fd) :
    beforeClose reads ev s = if Gone reads ev.events then s.setActiveclose ev.fd else s := by
  unfold beforeClose
  rw [readStage_eq hs]
  by_cases hread : ev.events.epollin = true ∧ readsEnd reads = true
  · have hfuns : ((s.setActiveclose ev.fd).gFdProcess ev.fd).mWritefun = some .clientWritefun :=
      congrArg FdProcess.mWritefun hs.funs
    rw [if_pos hread, writeStage_eq _ hfuns, if_pos (show Gone reads ev.events from .inr hread),
      hangupStage]
    have hactive : (s.setActiveclose ev.fd).mActiveclose ev.fd = true := Function.update_self _ _ _
    rw [if_neg fun h => Bool.false_ne_true (h.1.symm.trans hactive)]
  · rw [if_neg hread, writeStage_eq _ (congrArg FdProcess.mWritefun hs.funs), hangupStage]
    by_cases hhup : ev.events.epollrdhup = true
    · rw [if_pos ⟨hs.open', hhup⟩, if_pos (show Gone reads ev.events from .inl hhup)]
    · rw [if_neg fun h => hhup h.2, if_neg (show ¬Gone reads ev.events from ?_)]
      rintro (h | h)
      · exact hhup h
      · exact hread h

/-- The connection is given up. -/
def EventLoop.closed (s : EventLoop) (fd : ℕ) : EventLoop := (s.init fd).close fd

/-- A reported connection is closed if its end is reported or read; otherwise nothing changes. -/
theorem processOneEvent_eq (ev : Event) (hs : Serves s ev.fd) :
    processOneEvent reads ev s =
      .ok (if Gone reads ev.events then s.closed ev.fd else s) := by
  unfold processOneEvent closeStage
  rw [beforeClose_eq ev hs]
  by_cases hgone : Gone reads ev.events
  · have hactive : (s.setActiveclose ev.fd).mActiveclose ev.fd = true := Function.update_self _ _ _
    have htimers : (s.setActiveclose ev.fd).timerlink.removeTimer (.cell ev.fd) =
        (s.setActiveclose ev.fd).timerlink := by
      rw [show (s.setActiveclose ev.fd).timerlink = .empty from hs.timers]
      rfl
    rw [if_pos hgone, if_pos hactive, if_pos hgone, htimers]
    have hfuns : ((s.setActiveclose ev.fd).gFdProcess ev.fd).mClosefun = some .clientClosefun :=
      congrArg FdProcess.mClosefun hs.funs
    dsimp only
    rw [hfuns]
    dsimp only
    rw [callFun, clientClosefun]
    exact congrArg (fun l : EventLoop => Except.ok (l.close ev.fd)) (init_setActiveclose s ev.fd)
  · rw [if_neg hgone, if_neg hgone, if_neg (by rw [hs.open']; exact Bool.false_ne_true)]

/-! Whole runs. -/

variable {num : ℕ} {opened : ℕ → Bool} {m m' : Main} {a : MainAct}

/-- The watched descriptors are the open connections, and they work. -/
structure MainOk (num : ℕ) (opened : ℕ → Bool) (m : Main) : Prop where
  watched : ∀ fd, fd ∈ m.loop.interest ↔ m.loop.opened fd = true ∧ opened fd = false
  kept : ∀ fd, opened fd = true → m.loop.opened fd = true
  serves : ∀ fd ∈ m.loop.interest, Serves m.loop fd
  idle : ∀ fd, m.loop.mActiveclose fd = false
  timers : m.loop.timerlink = .empty
  batchNodup : (m.batch.map Event.fd).Nodup
  batchWatched : ∀ ev ∈ m.batch, ev.fd ∈ m.loop.interest
  count : m.loop.interest.length+m.left ≤ num

theorem bootMain_ok (num : ℕ) (opened : ℕ → Bool) : MainOk num opened (bootMain num opened) where
  watched := by
    intro fd
    refine ⟨fun h => (List.not_mem_nil h).elim, fun ⟨hopen, hclosed⟩ => ?_⟩
    exact (Bool.false_ne_true (hclosed.symm.trans hopen)).elim
  kept := fun _ h => h
  serves := fun _ h => (List.not_mem_nil h).elim
  idle := fun _ => rfl
  timers := rfl
  batchNodup := List.nodup_nil
  batchWatched := fun _ h => (List.not_mem_nil h).elim
  count := Nat.le_of_eq (Nat.zero_add num)

theorem MainOk.connect (hm : MainOk num opened m) {fd left : ℕ} (hleft : m.left = left+1)
    (hfree : m.loop.opened fd = false) :
    MainOk num opened { m with loop := m.loop.connected fd, left := left } := by
  have hnew : opened fd = false := by
    by_contra hold
    exact Bool.false_ne_true (hfree.symm.trans (hm.kept fd (Bool.not_eq_false _ ▸ hold)))
  refine ⟨fun i => ?_, fun i hi => ?_, fun i hi => ?_, hm.idle, hm.timers, hm.batchNodup,
    fun ev hev => List.mem_append_left _ (hm.batchWatched ev hev), ?_⟩
  · change i ∈ m.loop.interest ++ [fd] ↔ Function.update m.loop.opened fd true i = true ∧ _
    rw [List.mem_append, List.mem_singleton]
    by_cases hi : i = fd
    · rw [hi, Function.update_self]
      exact iff_of_true (.inr rfl) ⟨rfl, hnew⟩
    · rw [Function.update_of_ne hi, hm.watched]
      exact or_iff_left hi
  · change Function.update m.loop.opened fd true i = true
    by_cases hsame : i = fd
    · rw [hsame, Function.update_self]
    · rw [Function.update_of_ne hsame]
      exact hm.kept i hi
  · by_cases hsame : i = fd
    · rw [hsame]
      exact ⟨Function.update_self _ _ _, hm.idle fd, hm.timers⟩
    · have hold := hm.serves i ((List.mem_append.mp hi).resolve_right fun h =>
        hsame (List.mem_singleton.mp h))
      exact ⟨(Function.update_of_ne hsame _ _).trans hold.funs, hm.idle i, hm.timers⟩
  · have hcount := hm.count
    rw [hleft] at hcount
    change (m.loop.interest ++ [fd]).length+left ≤ num
    rw [List.length_append, List.length_singleton]
    omega

/-- The connection of the first reported event is closed; the other events are of other ones. -/
theorem MainOk.closed (hm : MainOk num opened m) {ev : Event} {batch : List Event}
    (hbatch : m.batch = ev :: batch) :
    MainOk num opened { m with loop := m.loop.closed ev.fd, batch := batch } := by
  have hnodup := hm.batchNodup
  have hwatched := hm.batchWatched
  rw [hbatch, List.map_cons, List.nodup_cons] at hnodup
  rw [hbatch] at hwatched
  have hmem (i : ℕ) : i ∈ (m.loop.closed ev.fd).interest ↔ i ∈ m.loop.interest ∧ i ≠ ev.fd := by
    change i ∈ m.loop.interest.filter (· ≠ ev.fd) ↔ _
    rw [List.mem_filter, decide_eq_true_iff]
  have hconnection := (hm.watched ev.fd).mp (hwatched ev List.mem_cons_self)
  have hidle (i : ℕ) : (m.loop.closed ev.fd).mActiveclose i = false := by
    change Function.update m.loop.mActiveclose ev.fd false i = false
    by_cases hi : i = ev.fd
    · rw [hi, Function.update_self]
    · rw [Function.update_of_ne hi]
      exact hm.idle i
  refine ⟨fun i => ?_, fun i hi => ?_, fun i hi => ?_, hidle, hm.timers, hnodup.2,
    fun e he => ?_, ?_⟩
  · dsimp only
    rw [hmem, hm.watched]
    change _ ↔ Function.update m.loop.opened ev.fd false i = true ∧ _
    by_cases hi : i = ev.fd
    · rw [hi, Function.update_self]
      exact iff_of_false (fun h => h.2 rfl) fun h => Bool.false_ne_true h.1
    · rw [Function.update_of_ne hi]
      exact and_iff_left hi
  · have hne : i ≠ ev.fd := by
      rintro rfl
      exact Bool.false_ne_true (hconnection.2.symm.trans hi)
    change Function.update m.loop.opened ev.fd false i = true
    rw [Function.update_of_ne hne]
    exact hm.kept i hi
  · obtain ⟨hi, hne⟩ := (hmem i).mp hi
    refine ⟨?_, hidle i, hm.timers⟩
    exact (Function.update_of_ne hne _ _).trans (hm.serves i hi).funs
  · refine (hmem e.fd).mpr ⟨hwatched e (List.mem_cons_of_mem _ he), fun hsame => hnodup.1 ?_⟩
    rw [← hsame]
    exact List.mem_map_of_mem he
  · exact (Nat.add_le_add_right (List.length_filter_le _ _) _).trans hm.count

theorem nextMain_ok (hm : MainOk num opened m) (h : nextMain m a = some m') :
    MainOk num opened m' := by
  cases a with
  | connect clientfd =>
    simp only [nextMain] at h
    split at h
    · next left fd hleft =>
      split at h <;> cases h
      next hfree =>
      rw [not_or, not_or, Bool.not_eq_true] at hfree
      exact hm.connect hleft hfree.2.2
    · next left hleft =>
      cases h
      have hcount := hm.count
      rw [hleft] at hcount
      exact { hm with count := by dsimp only; omega }
    · cases h
  | wait events =>
    simp only [nextMain] at h
    split at h <;> cases h
    next hreports =>
    exact { hm with
      batchNodup := hreports.2.2.2.1
      batchWatched := hreports.2.2.2.2 }
  | event reads =>
    simp only [nextMain] at h
    split at h
    · cases h
    · next ev batch hbatch =>
      have hwatched := hm.batchWatched ev (by rw [hbatch]; exact List.mem_cons_self)
      rw [processOneEvent_eq ev (hm.serves ev.fd hwatched)] at h
      dsimp only at h
      cases h
      split
      · exact hm.closed hbatch
      · have hnodup := hm.batchNodup
        rw [hbatch, List.map_cons, List.nodup_cons] at hnodup
        refine { hm with
          batchNodup := hnodup.2
          batchWatched := fun e he => hm.batchWatched e ?_ }
        rw [hbatch]
        exact List.mem_cons_of_mem _ he

/-- In every state of the main thread, whatever `connect`, `epoll_wait` and `read` answer: the
descriptors watched are exactly the connections that are open, at most `num` of them. Each event
that is still to be processed is processed without a call through a null pointer: the connection is
closed if its end is reported or read, and otherwise nothing changes. -/
theorem connections_exact (h : Reachable nextMain (bootMain num opened) m) :
    (∀ fd, fd ∈ m.loop.interest ↔ m.loop.opened fd = true ∧ opened fd = false) ∧
    m.loop.interest.length ≤ num ∧
    ∀ ev ∈ m.batch, ∀ reads, processOneEvent reads ev m.loop =
      .ok (if Gone reads ev.events then m.loop.closed ev.fd else m.loop) := by
  have hm : MainOk num opened m :=
    h.invariant (fun _ _ _ hm h => nextMain_ok hm h) (bootMain_ok num opened)
  refine ⟨hm.watched, (Nat.le_add_right _ _).trans hm.count, fun ev hev reads => ?_⟩
  exact processOneEvent_eq ev (hm.serves ev.fd (hm.batchWatched ev hev))

end Main

section TwoConnections

attribute [local instance] VoidPtr.order

/-- Two connections, of which the first has been closed by its peer; the second has bytes to
read. -/
def twoConnections : List MainAct :=
  [.connect (some 4), .connect (some 5),
    .wait [⟨4, ⟨true, false, true, false, false⟩⟩, ⟨5, ⟨true, false, false, false, false⟩⟩],
    .event [0]]

def twoState : Main := (exec nextMain (bootMain 2 fun fd => decide (fd < 4)) twoConnections).get rfl

theorem connections_exact_two :
    (∀ fd, fd ∈ twoState.loop.interest ↔
      twoState.loop.opened fd = true ∧ decide (fd < 4) = false) ∧
    twoState.loop.interest.length ≤ 2 ∧
    ∀ ev ∈ twoState.batch, ∀ reads, processOneEvent reads ev twoState.loop =
      .ok (if Gone reads ev.events then twoState.loop.closed ev.fd else twoState.loop) :=
  connections_exact (Reachable.of_exec
    (show exec nextMain (bootMain 2 fun fd => decide (fd < 4)) twoConnections = some twoState
      from rfl))

end TwoConnections

end LinuxPrograms.C1000k.Client
