import LinuxPrograms.EpollTcpClients

/-! The event loop of the epoll TCP server (`start_server`) and its thread pool. A task's argument
is the address of a descriptor in `events[]`, which the next `epoll_wait` fills again, so a task
finds its client's descriptor as long as the last batch to reach the place put it there. -/
namespace LinuxPrograms.EpollTcp
open Lib

def queueSize : ℕ := 256

def threadCount : ℕ := 32

structure EpollEvent where
  fd : ℕ
  epollin : Bool
  epollout : Bool
deriving DecidableEq, Repr

/-- A task of the pool: the index its argument points to, the client it was queued for, and how
many batches had been reported by then. -/
structure Task where
  arg : ℕ
  client : ℕ
  since : ℕ
deriving DecidableEq, Repr

/-- Where `start_server` is in its loop. -/
inductive MainPc
  | wait
  | scan (i nfds : ℕ)

structure Server where
  events : ℕ → EpollEvent
  main : MainPc
  registered : List ℕ
  list : Clilist
  queue : List Task
  running : List Task
  batches : List (List EpollEvent)  -- everything `epoll_wait` has reported
  derefs : List (ℕ × ℕ)             -- a task's client, and the descriptor it found

inductive Act
  | epollWait (batch : List EpollEvent)
  | next (conn : Option Clientmember)
  | start
  | io (k : ℕ) (n : IoRet)
  | broadcast (k i : ℕ) (n : IoRet)
  | finish (k : ℕ)

/-- `events[]` is uninitialised. -/
def setup (listenfd : ℕ) (garbage : ℕ → EpollEvent) : Server where
  events := garbage
  main := .wait
  registered := [listenfd]
  list := .zero
  queue := []
  running := []
  batches := []
  derefs := []

/-- The loop counter moves on. -/
def MainPc.advance (i nfds : ℕ) : MainPc := if i+1 < nfds then .scan (i+1) nfds else .wait

/-- `op_read` or `op_write` on descriptor `fd`. -/
def Server.transfer (s : Server) (fd : ℕ) (n : IoRet) : Server :=
  { s with
    list := (opIo s.list fd n).2
    registered := if n.Fails then s.registered.filter (· ≠ fd) else s.registered }

/-- The loop body for `events[i]`; `threadpool_add` refuses a task when the queue is full, and
nobody looks at what it returned. -/
def scanStep (listenfd : ℕ) (s : Server) (i nfds : ℕ) (conn : Option Clientmember) :
    Option Server :=
  let ev := s.events i
  if ev.fd = listenfd then
    match conn with
    | none => none  -- exit(1)
    | some member =>
      if member.fd ∈ s.registered then none
      else
        match addClilist s.list member with
        | none => none
        | some list => some { s with
            list := list
            registered := member.fd :: s.registered
            main := .advance i nfds }
  else if ev.epollin then
    some { s with
      queue := if s.queue.length = queueSize then s.queue
        else s.queue ++ [⟨i, ev.fd, s.batches.length⟩]
      main := .advance i nfds }
  else some { s with main := .advance i nfds }

/-- What the loop body can do: accept a client that is listed, queue a task unless the queue is
full, or nothing. -/
theorem scanStep_cases {listenfd : ℕ} {s s' : Server} {i nfds : ℕ} {conn : Option Clientmember}
    (h : scanStep listenfd s i nfds conn = some s') :
    ((s.events i).fd = listenfd ∧ ∃ member list, conn = some member ∧
      member.fd ∉ s.registered ∧ addClilist s.list member = some list ∧
      s' = { s with
        list := list, registered := member.fd :: s.registered, main := .advance i nfds }) ∨
    ((s.events i).fd ≠ listenfd ∧ (s.events i).epollin = true ∧
      s' = { s with
        queue := if s.queue.length = queueSize then s.queue
          else s.queue ++ [⟨i, (s.events i).fd, s.batches.length⟩]
        main := .advance i nfds }) ∨
    ((s.events i).fd ≠ listenfd ∧ (s.events i).epollin = false ∧
      s' = { s with main := .advance i nfds }) := by
  unfold scanStep at h
  dsimp only at h
  split at h
  · next hlisten =>
    split at h
    · cases h
    split at h
    · cases h
    split at h <;> cases h
    next member hnew _ list hadd => exact .inl ⟨hlisten, member, list, rfl, hnew, hadd, rfl⟩
  · next hclient =>
    split at h <;> cases h
    · next hin => exact .inr (.inl ⟨hclient, hin, rfl⟩)
    · next hin => exact .inr (.inr ⟨hclient, Bool.eq_false_iff.mpr hin, rfl⟩)

/-- One step of the main thread or of a pool thread. `.io` stands for one dereference of the
argument in `op_read` or `op_write`, and for what the call does with the descriptor it finds; where
the call dereferences its argument again, that is a further `.io`. The broadcast of `handle` goes
over the client list. -/
def nextServer (listenfd : ℕ) (s : Server) : Act → Option Server
  | .epollWait batch =>
    match s.main with
    | .wait =>
      if batch.length ≤ maxConnect ∧ ∀ ev ∈ batch, ev.fd ∈ s.registered then
        some { s with
          events := writeBlock s.events batch
          main := if batch = [] then .wait else .scan 0 batch.length
          batches := s.batches ++ [batch] }
      else none
    | _ => none
  | .next conn =>
    match s.main with
    | .scan i nfds => scanStep listenfd s i nfds conn
    | _ => none
  | .start =>
    match s.queue with
    | [] => none
    | t :: queue =>
      if s.running.length < threadCount then
        some { s with queue := queue, running := s.running ++ [t] }
      else none
  | .io k n =>
    match s.running[k]? with
    | none => none
    | some t =>
      let fd := (s.events t.arg).fd
      some { s.transfer fd n with derefs := s.derefs ++ [(t.client, fd)] }
  | .broadcast k i n =>
    if k < s.running.length ∧ (i : ℤ) < s.list.tailindex then
      some (s.transfer (s.list.clilist i).fd n)
    else none
  | .finish k =>
    if k < s.running.length then some { s with running := s.running.eraseIdx k } else none

/-- Every descriptor a task found through its argument was its client's. -/
def OwnClient (s : Server) : Prop := ∀ d ∈ s.derefs, d.2 = d.1

instance (s : Server) : Decidable (OwnClient s) :=
  inferInstanceAs (Decidable (∀ d ∈ s.derefs, d.2 = d.1))

/-- The condition on a step: when a task reads its argument, the last batch since it was queued
that reached the place, if any, reported the same client there. -/
def SlotKept (s : Server) : Act → Prop
  | .io k _ => ∀ t, s.running[k]? = some t →
      ∀ ev, lastWritten (s.batches.drop t.since) t.arg = some ev → ev.fd = t.client
  | _ => True

/-- What the places of `events[]` hold, and what the tasks were queued for. -/
structure SlotInv (s : Server) : Prop where
  slot : ∀ i ev, lastWritten s.batches i = some ev → s.events i = ev
  scan : ∀ i nfds, s.main = .scan i nfds → i < nfds ∧ ∀ j < nfds,
    (lastWritten s.batches j).isSome
  task : ∀ t ∈ s.queue ++ s.running, t.since ≤ s.batches.length ∧
    ∃ ev, lastWritten (s.batches.take t.since) t.arg = some ev ∧ ev.fd = t.client

theorem setup_slotInv (listenfd : ℕ) (garbage : ℕ → EpollEvent) :
    SlotInv (setup listenfd garbage) :=
  ⟨nofun, nofun, fun _ h => (List.not_mem_nil h).elim⟩

theorem writeBlock_slot {a : ℕ → EpollEvent} {batches : List (List EpollEvent)}
    {batch : List EpollEvent} (h : ∀ i ev, lastWritten batches i = some ev → a i = ev) (i : ℕ)
    (ev : EpollEvent) (hev : lastWritten (batches ++ [batch]) i = some ev) :
    writeBlock a batch i = ev := by
  rw [lastWritten_append, lastWritten_singleton] at hev
  unfold writeBlock
  cases hb : batch[i]? with
  | none =>
    rw [hb] at hev
    exact h i ev hev
  | some x =>
    rw [hb] at hev
    exact Option.some.inj hev

/-- What a task finds through its argument: what the last batch since put there, or else its
client. -/
theorem SlotInv.found {s : Server} (h : SlotInv s) {t : Task} (ht : t ∈ s.queue ++ s.running) :
    (s.events t.arg).fd = t.client ↔
      ∀ ev, lastWritten (s.batches.drop t.since) t.arg = some ev → ev.fd = t.client := by
  obtain ⟨_, e, hlast, hclient⟩ := h.task t ht
  -- the batches before the task was queued, and those after
  have hsplit := lastWritten_append (s.batches.take t.since) (s.batches.drop t.since) t.arg
  rw [List.take_append_drop, hlast] at hsplit
  cases hd : lastWritten (s.batches.drop t.since) t.arg with
  | none =>
    rw [hd] at hsplit
    rw [h.slot _ _ hsplit]
    exact iff_of_true hclient nofun
  | some e' =>
    rw [hd] at hsplit
    rw [h.slot _ _ hsplit]
    constructor
    · intro heq ev hev
      cases hev
      exact heq
    · exact fun hall => hall e' rfl

theorem advance_scan {i nfds i' nfds' : ℕ} (h : MainPc.advance i nfds = .scan i' nfds') :
    i' < nfds' ∧ nfds' = nfds := by
  unfold MainPc.advance at h
  split at h
  · cases h
    exact ⟨by assumption, rfl⟩
  · cases h

/-- The loop body leaves `events[]` alone, and a task it queues is for what stands there. -/
theorem SlotInv.scanStep {listenfd : ℕ} {s s' : Server} (h : SlotInv s) {i nfds : ℕ}
    {conn : Option Clientmember} (hmain : s.main = .scan i nfds)
    (hstep : scanStep listenfd s i nfds conn = some s') : SlotInv s' ∧ s'.derefs = s.derefs := by
  obtain ⟨hi, hall⟩ := h.scan i nfds hmain
  have hscan : ∀ i' nfds', MainPc.advance i nfds = .scan i' nfds' →
      i' < nfds' ∧ ∀ j < nfds', (lastWritten s.batches j).isSome := by
    intro i' nfds' hadv
    obtain ⟨hlt, rfl⟩ := advance_scan hadv
    exact ⟨hlt, hall⟩
  obtain ⟨-, member, list, -, -, -, rfl⟩ | ⟨-, -, rfl⟩ | ⟨-, -, rfl⟩ := scanStep_cases hstep
  · exact ⟨⟨h.slot, hscan, h.task⟩, rfl⟩
  · refine ⟨⟨h.slot, hscan, fun t ht => ?_⟩, rfl⟩
    dsimp only at ht
    split at ht
    · exact h.task t ht
    · rw [List.append_assoc, List.singleton_append, List.mem_append, List.mem_cons] at ht
      rcases ht with ht | rfl | ht
      · exact h.task t (List.mem_append_left _ ht)
      · obtain ⟨ev, hev⟩ := Option.isSome_iff_exists.mp (hall i hi)
        refine ⟨Nat.le_refl _, ev, ?_, ?_⟩
        · rw [List.take_length]
          exact hev
        · rw [h.slot i ev hev]
      · exact h.task t (List.mem_append_right _ ht)
  · exact ⟨⟨h.slot, hscan, h.task⟩, rfl⟩

/-- Later batches do not touch what a task was queued for. -/
theorem SlotInv.report {s : Server} (h : SlotInv s) (batch : List EpollEvent) :
    SlotInv { s with
      events := writeBlock s.events batch
      main := if batch = [] then .wait else .scan 0 batch.length
      batches := s.batches ++ [batch] } := by
  refine ⟨fun i ev => writeBlock_slot h.slot i ev, fun i nfds hmain => ?_, fun t ht => ?_⟩
  · dsimp only at hmain
    split at hmain <;> cases hmain
    rename_i hne
    refine ⟨List.length_pos_of_ne_nil hne, fun j hj => ?_⟩
    rw [lastWritten_append, lastWritten_singleton, List.getElem?_eq_getElem hj]
    rfl
  · obtain ⟨hle, hev⟩ := h.task t ht
    rw [List.take_append_of_le_length hle, List.length_append]
    exact ⟨by omega, hev⟩

/-- One more descriptor found through an argument. -/
theorem ownClient_append {s s' : Server} {t : Task} {fd : ℕ} (hown : OwnClient s)
    (hderefs : s'.derefs = s.derefs ++ [(t.client, fd)]) : OwnClient s' ↔ fd = t.client := by
  unfold OwnClient
  rw [hderefs]
  constructor
  · intro hown'
    exact hown' (t.client, fd) (List.mem_append_right _ (List.mem_singleton_self _))
  · intro heq d hd
    rcases List.mem_append.mp hd with hd | hd
    · exact hown d hd
    · cases List.mem_singleton.mp hd
      exact heq

/-- The condition on reading an argument is the one on the task that reads it. -/
theorem slotKept_io {s : Server} {k : ℕ} {n : IoRet} {t : Task} (ht : s.running[k]? = some t) :
    SlotKept s (.io k n) ↔
      ∀ ev, lastWritten (s.batches.drop t.since) t.arg = some ev → ev.fd = t.client := by
  constructor
  · intro hall
    exact hall t ht
  · intro hall t' ht'
    cases ht.symm.trans ht'
    exact hall

/-- A step keeps the places, and it keeps every task on its own client exactly when the task that
reads its argument finds its place kept. -/
theorem ownClient_step {listenfd : ℕ} {s s' : Server} {a : Act} (h : SlotInv s)
    (hstep : nextServer listenfd s a = some s') :
    SlotInv s' ∧ (OwnClient s → (OwnClient s' ↔ SlotKept s a)) := by
  cases a with
  | epollWait batch =>
    simp only [nextServer] at hstep
    split at hstep
    · split at hstep <;> cases hstep
      exact ⟨h.report batch, fun hown => iff_of_true hown trivial⟩
    · cases hstep
  | next conn =>
    simp only [nextServer] at hstep
    split at hstep
    · rename_i i nfds hmain
      obtain ⟨hinv, hderefs⟩ := h.scanStep hmain hstep
      refine ⟨hinv, fun hown => iff_of_true ?_ trivial⟩
      unfold OwnClient
      rwa [hderefs]
    · cases hstep
  | start =>
    simp only [nextServer] at hstep
    split at hstep
    · cases hstep
    split at hstep <;> cases hstep
    rename_i t queue hqueue _
    refine ⟨⟨h.slot, h.scan, fun t' ht' => h.task t' ?_⟩, fun hown => iff_of_true hown trivial⟩
    rw [hqueue]
    dsimp only at ht'
    rw [List.mem_append, List.mem_append, List.mem_singleton] at ht'
    rw [List.cons_append, List.mem_cons, List.mem_append]
    tauto
  | io k n =>
    simp only [nextServer] at hstep
    split at hstep
    · cases hstep
    rename_i t ht
    cases hstep
    refine ⟨⟨h.slot, h.scan, h.task⟩, fun hown => ?_⟩
    have hmem : t ∈ s.queue ++ s.running :=
      List.mem_append_right _ (List.mem_of_getElem? ht)
    rw [slotKept_io ht, ← h.found hmem]
    exact ownClient_append hown rfl
  | broadcast k i n =>
    simp only [nextServer] at hstep
    split at hstep <;> cases hstep
    exact ⟨⟨h.slot, h.scan, h.task⟩, fun hown => iff_of_true hown trivial⟩
  | finish k =>
    simp only [nextServer] at hstep
    split at hstep <;> cases hstep
    refine ⟨⟨h.slot, h.scan, fun t ht => h.task t ?_⟩, fun hown => iff_of_true hown trivial⟩
    rcases List.mem_append.mp ht with ht | ht
    · exact List.mem_append_left _ ht
    · exact List.mem_append_right _ (List.mem_of_mem_eraseIdx ht)

/-- In every run the tasks find their own clients exactly when, at each reading of an argument,
its place in `events[]` has not been given to another client since the task was queued. -/
theorem own_client_iff_slot_kept (listenfd : ℕ) (garbage : ℕ → EpollEvent)
    (tr : List (Server × Act)) (s : Server)
    (h : Run (nextServer listenfd) (setup listenfd garbage) tr s) :
    Throughout OwnClient tr s ↔ ∀ p ∈ tr, SlotKept p.1 p.2 :=
  h.throughout_iff SlotKept (fun _ _ _ hinv hstep => (ownClient_step hinv hstep).1)
    (fun _ _ _ hinv hown hstep => (ownClient_step hinv hstep).2 hown)
    (setup_slotInv listenfd garbage) (fun _ hd => (List.not_mem_nil hd).elim)

/-- The listening socket is 3; clients 5 and 6 connect, and 5 sends something. -/
def readActs : List Act :=
  [.epollWait [⟨3, true, false⟩], .next (some ⟨5, "10.0.0.1"⟩), .epollWait [⟨3, true, false⟩],
    .next (some ⟨6, "10.0.0.2"⟩), .epollWait [⟨5, true, false⟩], .next none]

def idleServer : Server := setup 3 (fun _ => ⟨0, false, false⟩)

/-- A pool thread starts at once, and then reads from client 5. -/
def startedServer : Server :=
  (exec (nextServer 3) idleServer (readActs ++ [.start])).get rfl

def promptServer : Server := (nextServer 3 startedServer (.io 0 (.count 4))).get rfl

theorem promptServer_run : Run (nextServer 3) idleServer
    (trace (nextServer 3) idleServer (readActs ++ [.start]) ++ [(startedServer, .io 0 (.count 4))])
    promptServer :=
  (Run.of_exec (Option.some_get _).symm).append (.single (Option.some_get _).symm)

theorem own_client_iff_slot_kept_prompt : SlotKept startedServer (.io 0 (.count 4)) :=
  (own_client_iff_slot_kept 3 _ _ promptServer promptServer_run).mp ⟨by decide, by decide⟩
    (startedServer, .io 0 (.count 4)) (List.mem_append_right _ (List.mem_singleton_self _))

/-- Client 6 sends something before the pool thread reads: the task for client 5 reads from 6. -/
def lateServer : Server :=
  (exec (nextServer 3) idleServer
    (readActs ++ [.epollWait [⟨6, true, false⟩], .start, .io 0 (.count 4)])).get rfl

theorem task_not_always_own_client :
    ¬ ∀ (listenfd : ℕ) (garbage : ℕ → EpollEvent) (tr : List (Server × Act)) (s : Server),
      Run (nextServer listenfd) (setup listenfd garbage) tr s → Throughout OwnClient tr s := by
  intro hall
  have hown := (hall 3 _ _ lateServer (.of_exec (Option.some_get _).symm)).2
  exact absurd hown (by decide)

end LinuxPrograms.EpollTcp
