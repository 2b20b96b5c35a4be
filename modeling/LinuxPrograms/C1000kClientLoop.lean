import LinuxPrograms.C1000kOrders

/-! The event loop of the c1000k client (client/src/main_event.cc, client.cpp, timers.cc). When it
closes a connection it removes the timers of `&gFdProcess[fd]`, the address of the array cell;
they were added for `gFdProcess[fd]`, the item. `timer_link` is the class `TIMER` of the server
with other names for its functions. -/
namespace LinuxPrograms.C1000k.Client
open Lib

section EventLoop

variable [LinearOrder VoidPtr]

/-- `m_activeclose` of each item, and the timers of the worker. -/
structure EventLoop [LinearOrder VoidPtr] extends Worker where
  mActiveclose : ℕ → Bool
  timerlink : TIMER VoidPtr

def EventLoop.setActiveclose (s : EventLoop) (fd : ℕ) : EventLoop :=
  { s with mActiveclose := Function.update s.mActiveclose fd true }

/-- `FdProcess::init`. -/
def EventLoop.init (s : EventLoop) (fd : ℕ) : EventLoop :=
  { s with
    gFdProcess := Function.update s.gFdProcess fd ⟨none, none, none⟩
    mActiveclose := Function.update s.mActiveclose fd false }

/-- `close` also takes the descriptor out of the epoll set. -/
def EventLoop.close (s : EventLoop) (fd : ℕ) : EventLoop :=
  { s with
    opened := Function.update s.opened fd false
    interest := s.interest.filter (· ≠ fd) }

/-- `reads` are the results of `read`; after the last one it is -1. -/
def clientReadfun (fd : ℕ) : List ℤ → EventLoop → ℤ × EventLoop
  | [], s => (1, s)
  | len :: reads, s =>
    if len = -1 then (1, s)
    else if len = 0 then (-1, s.setActiveclose fd)
    else clientReadfun fd reads s

def clientWritefun (s : EventLoop) : ℤ × EventLoop := (1, s)

/-- The timers are not touched. -/
def clientClosefun (fd : ℕ) (s : EventLoop) : ℤ × EventLoop := (1, (s.init fd).close fd)

def callFun (fd : ℕ) (reads : List ℤ) : FdFun → EventLoop → ℤ × EventLoop
  | .clientReadfun, s => clientReadfun fd reads s
  | .clientWritefun, s => clientWritefun s
  | .clientClosefun, s => clientClosefun fd s

/-- The read and the write test of `process_one_event`. -/
def callStage (reads : List ℤ) (fun? : FdProcess → Option FdFun) (reported : Bool) (fd : ℕ)
    (s : EventLoop) : EventLoop :=
  if s.mActiveclose fd = false ∧ reported then
    match fun? (s.gFdProcess fd) with
    | some f =>
      let (r, s') := callFun fd reads f s
      if r < 0 then s'.setActiveclose fd else s'
    | none => s
  else s

def hangupStage (ev : Event) (s : EventLoop) : EventLoop :=
  if s.mActiveclose ev.fd = false ∧ ev.events.epollrdhup then s.setActiveclose ev.fd else s

/-- `process_one_event` up to its last test. -/
def beforeClose (reads : List ℤ) (ev : Event) (s : EventLoop) : EventLoop :=
  hangupStage ev (callStage reads (·.mWritefun) ev.events.epollout ev.fd
    (callStage reads (·.mReadfun) ev.events.epollin ev.fd s))

def closeStage (reads : List ℤ) (fd : ℕ) (s : EventLoop) : Except Stop EventLoop :=
  if s.mActiveclose fd then
    let s₁ := { s with timerlink := s.timerlink.removeTimer (.cell fd) }
    match (s₁.gFdProcess fd).mClosefun with
    | some f => .ok (callFun fd reads f s₁).2
    | none => .error .nullClosefun
  else .ok s

def processOneEvent (reads : List ℤ) (ev : Event) (s : EventLoop) : Except Stop EventLoop :=
  closeStage reads ev.fd (beforeClose reads ev s)

/-- `process_one_event` closes the connection, through `client_closefun`. -/
def Closes (reads : List ℤ) (ev : Event) (s : EventLoop) : Prop :=
  (beforeClose reads ev s).mActiveclose ev.fd = true ∧
    ((beforeClose reads ev s).gFdProcess ev.fd).mClosefun = some .clientClosefun

/-- A `timer_link` after these calls of `add_timer`. -/
def timerLink (adds : List (VoidPtr × TimeValue)) : TIMER VoidPtr :=
  adds.foldl (fun T add => T.addTimer add.1 add.2) .empty

/-- No entry is left for `gFdProcess[fd]`, and the entries of the other items stand. -/
structure Forgets (fd : ℕ) (T T' : TIMER VoidPtr) : Prop where
  argTime : ∀ t, (VoidPtr.item fd, t) ∉ T'.timerArgTime.entries
  timeArg : ∀ t, (t, VoidPtr.item fd) ∉ T'.timerTimeArg.entries
  othersArgTime : ∀ i, i ≠ fd →
    T'.timerArgTime.entries.filter (fun e => decide (e.1 = .item i)) =
      T.timerArgTime.entries.filter (fun e => decide (e.1 = .item i))
  othersTimeArg : ∀ i, i ≠ fd →
    T'.timerTimeArg.entries.filter (fun e => decide (e.2 = .item i)) =
      T.timerTimeArg.entries.filter (fun e => decide (e.2 = .item i))

/-! No callback touches the timers. -/

theorem clientReadfun_timerlink (fd : ℕ) (reads : List ℤ) (s : EventLoop) :
    (clientReadfun fd reads s).2.timerlink = s.timerlink := by
  induction reads with
  | nil => rfl
  | cons len reads ih =>
    rw [clientReadfun]
    split
    · rfl
    · split
      · rfl
      · exact ih

theorem callFun_timerlink (fd : ℕ) (reads : List ℤ) (f : FdFun) (s : EventLoop) :
    (callFun fd reads f s).2.timerlink = s.timerlink := by
  cases f with
  | clientReadfun => exact clientReadfun_timerlink fd reads s
  | clientWritefun => rfl
  | clientClosefun => rfl

theorem callStage_timerlink (reads : List ℤ) (fun? : FdProcess → Option FdFun) (reported : Bool)
    (fd : ℕ) (s : EventLoop) : (callStage reads fun? reported fd s).timerlink = s.timerlink := by
  unfold callStage
  split
  · split
    · next f _ =>
      have hcall := callFun_timerlink fd reads f s
      dsimp only
      split
      · exact hcall
      · exact hcall
    · rfl
  · rfl

theorem beforeClose_timerlink (reads : List ℤ) (ev : Event) (s : EventLoop) :
    (beforeClose reads ev s).timerlink = s.timerlink := by
  unfold beforeClose hangupStage
  split
  · show (callStage reads _ _ _ _).timerlink = _
    rw [callStage_timerlink, callStage_timerlink]
  · rw [callStage_timerlink, callStage_timerlink]

/-- What is left of the timers is what is not armed for the cell. -/
theorem processOneEvent_closes {reads : List ℤ} {ev : Event} {s : EventLoop}
    (h : Closes reads ev s) :
    ∃ s', processOneEvent reads ev s = .ok s' ∧ s'.opened ev.fd = false ∧
      s'.timerlink = s.timerlink.removeTimer (.cell ev.fd) := by
  obtain ⟨hactive, hclosefun⟩ := h
  unfold processOneEvent closeStage
  rw [if_pos hactive]
  simp only [hclosefun]
  refine ⟨_, rfl, Function.update_self _ _ _, ?_⟩
  show (beforeClose reads ev s).timerlink.removeTimer (.cell ev.fd) = _
  rw [beforeClose_timerlink]

/-! The timers `add_timer` built, and what removing a cell's address does to them. -/

theorem timerLink_represents (adds : List (VoidPtr × TimeValue)) :
    (timerLink adds).Represents (adds.map Prod.swap) := by
  have hadds (T : TIMER VoidPtr) (s : List (TimeValue × VoidPtr)) (hT : T.Represents s) :
      (adds.foldl (fun T add => T.addTimer add.1 add.2) T).Represents
        (s ++ adds.map Prod.swap) := by
    induction adds generalizing T s with
    | nil => rwa [List.map_nil, List.append_nil]
    | cons add adds ih =>
      have hrest := ih _ _ (hT.addTimer add.1 add.2)
      rwa [List.append_assoc] at hrest
  exact hadds .empty [] .empty

theorem filter_item_removeCell {α : Type*} (l : List α) (ptr : α → VoidPtr) (fd i : ℕ) :
    (l.filter (fun e => decide (ptr e ≠ .cell fd))).filter (fun e => decide (ptr e = .item i)) =
      l.filter (fun e => decide (ptr e = .item i)) := by
  rw [List.filter_filter]
  apply List.filter_congr
  intro e _
  by_cases he : ptr e = .item i
  · simp [he]
  · simp [he]

/-- The timers of every item stand when a cell's address is removed. -/
theorem forgets_removeCell_iff {T : TIMER VoidPtr} {s : List (TimeValue × VoidPtr)}
    (hT : T.Represents s) (fd : ℕ) :
    Forgets fd T (T.removeTimer (.cell fd)) ↔ ∀ t, (t, VoidPtr.item fd) ∉ s := by
  have hargTime := T.removeTimer_argTime (.cell fd)
  have htimeArg := hT.removeTimer_timeArg (.cell fd)
  constructor
  · intro hforgets t hmem
    apply hforgets.argTime t
    rw [hargTime, List.mem_filter]
    exact ⟨(hT.mem_argTime _ _).mpr hmem, decide_eq_true nofun⟩
  · intro hunarmed
    refine ⟨fun t hmem => ?_, fun t hmem => ?_, fun i _ => ?_, fun i _ => ?_⟩
    · rw [hargTime] at hmem
      exact hunarmed t ((hT.mem_argTime _ _).mp (List.mem_filter.mp hmem).1)
    · rw [htimeArg] at hmem
      exact hunarmed t ((hT.timeArg.mem_iff _).mp (List.mem_filter.mp hmem).1)
    · rw [hargTime, filter_item_removeCell]
    · rw [htimeArg, filter_item_removeCell]

/-- When `process_one_event` closes a connection, its timers are forgotten exactly when none had
been added for it. -/
theorem closed_forgets_iff_unarmed {reads : List ℤ} {ev : Event} {s : EventLoop}
    {adds : List (VoidPtr × TimeValue)} (hadds : s.timerlink = timerLink adds)
    (hcloses : Closes reads ev s) :
    ∃ s', processOneEvent reads ev s = .ok s' ∧ s'.opened ev.fd = false ∧
      (Forgets ev.fd s.timerlink s'.timerlink ↔ ∀ t, (VoidPtr.item ev.fd, t) ∉ adds) := by
  obtain ⟨s', hevent, hclosed, htimers⟩ := processOneEvent_closes hcloses
  refine ⟨s', hevent, hclosed, ?_⟩
  rw [htimers, hadds, forgets_removeCell_iff (timerLink_represents adds)]
  have hswap (t : TimeValue) :
      (t, VoidPtr.item ev.fd) ∈ adds.map Prod.swap ↔ (VoidPtr.item ev.fd, t) ∈ adds :=
    List.mem_map_of_injective Prod.swap_injective (a := (VoidPtr.item ev.fd, t))
  simp only [hswap]

end EventLoop

section Connection7

attribute [local instance] VoidPtr.order

/-- Connection 7, with the timers that `adds` have added. -/
def connection7 (adds : List (VoidPtr × TimeValue)) : EventLoop where
  gFdProcess := fun _ => ⟨some .clientReadfun, some .clientWritefun, some .clientClosefun⟩
  opened := fun fd => decide (fd = 7)
  interest := [7]
  mActiveclose := fun _ => false
  timerlink := timerLink adds

/-- The peer has closed. -/
def peerClosed : Event := ⟨7, ⟨true, false, false, false, false⟩⟩

theorem connection7_closes (adds : List (VoidPtr × TimeValue)) :
    Closes [0] peerClosed (connection7 adds) :=
  ⟨rfl, rfl⟩

theorem closed_forgets_iff_unarmed_connection7 :
    ∃ s', processOneEvent [0] peerClosed (connection7 [(.item 8, 60)]) = .ok s' ∧
      Forgets 7 (connection7 [(.item 8, 60)]).timerlink s'.timerlink := by
  have hadds : (connection7 [(.item 8, 60)]).timerlink = timerLink [(.item 8, 60)] := rfl
  obtain ⟨s', hevent, -, hforgets⟩ := closed_forgets_iff_unarmed hadds (connection7_closes _)
  refine ⟨s', hevent, hforgets.mpr fun t hmem => ?_⟩
  cases List.mem_singleton.mp hmem

/-- A timer added for the item stays when the connection is closed. -/
theorem closed_keeps_timer :
    ¬ ∀ (reads : List ℤ) (ev : Event) (s s' : EventLoop) (adds : List (VoidPtr × TimeValue)),
      s.timerlink = timerLink adds → Closes reads ev s → processOneEvent reads ev s = .ok s' →
      Forgets ev.fd s.timerlink s'.timerlink := by
  intro hall
  obtain ⟨s', hevent, -, htimers⟩ := processOneEvent_closes (connection7_closes [(.item 7, 60)])
  have hforgets := hall [0] peerClosed (connection7 [(.item 7, 60)]) s' [(.item 7, 60)] rfl
    (connection7_closes _) hevent
  rw [htimers] at hforgets
  exact (forgets_removeCell_iff (timerLink_represents [(.item 7, 60)]) 7).mp hforgets 60
    List.mem_cons_self

end Connection7

end LinuxPrograms.C1000k.Client
