import LinuxPrograms.EpollTcpTasks

/-! What becomes of the reports of `epoll_wait`. The descriptors are registered edge-triggered, so a
report the loop passes over without a task is not made again. -/
namespace LinuxPrograms.EpollTcp
open Lib

/-- The events of the current batch the loop has yet to look at. -/
def unscanned (s : Server) : List EpollEvent :=
  match s.main with
  | .wait => []
  | .scan i nfds => (List.range' i (nfds-i)).map s.events

/-- The steps of the pool's threads. -/
def Act.OfPool : Act → Prop
  | .epollWait _ => False
  | .next _ => False
  | _ => True

theorem unscanned_advance {s : Server} {i nfds : ℕ} (hi : i < nfds) :
    (List.range' i (nfds-i)).map s.events =
      s.events i :: unscanned { s with main := .advance i nfds } := by
  have hlen : nfds-i = nfds-(i+1)+1 := by omega
  rw [hlen, List.range'_succ, List.map_cons]
  congr 1
  unfold unscanned MainPc.advance
  by_cases hlast : i+1 < nfds
  · rw [if_pos hlast]
  · rw [if_neg hlast, show nfds-(i+1) = 0 by omega]
    rfl

theorem map_writeBlock (a : ℕ → EpollEvent) (batch : List EpollEvent) :
    (List.range' 0 batch.length).map (writeBlock a batch) = batch := by
  apply List.ext_getElem
  · simp
  · intro i hi hb
    simp [writeBlock, hb]

theorem unscanned_report (s : Server) (batch : List EpollEvent) :
    unscanned { s with
      events := writeBlock s.events batch
      main := if batch = [] then .wait else .scan 0 batch.length
      batches := s.batches ++ [batch] } = batch := by
  unfold unscanned
  by_cases hb : batch = []
  · simp [hb]
  · simp only [if_neg hb]
    exact map_writeBlock s.events batch

/-- What a step does to the reports: a batch comes in, one is looked at, or the step is a pool
thread's. -/
theorem nextServer_reports {listenfd : ℕ} {s s' : Server} {a : Act} (h : SlotInv s)
    (hstep : nextServer listenfd s a = some s') :
    (∃ batch, a = .epollWait batch ∧ s.main = .wait ∧ unscanned s' = batch ∧
      s'.batches = s.batches ++ [batch]) ∨
    (∃ conn i nfds, a = .next conn ∧ s.main = .scan i nfds ∧
      scanStep listenfd s i nfds conn = some s' ∧ unscanned s = s.events i :: unscanned s' ∧
      s'.batches = s.batches) ∨
    (a.OfPool ∧ s'.main = s.main ∧ unscanned s' = unscanned s ∧ s'.batches = s.batches) := by
  cases a with
  | epollWait batch =>
    simp only [nextServer] at hstep
    split at hstep
    · split at hstep <;> cases hstep
      next hmain _ => exact .inl ⟨batch, rfl, hmain, unscanned_report s batch, rfl⟩
    · cases hstep
  | next conn =>
    simp only [nextServer] at hstep
    split at hstep
    · next i nfds hmain =>
      have hscan := unscanned_advance (s := s) (h.scan i nfds hmain).1
      refine .inr (.inl ⟨conn, i, nfds, rfl, hmain, hstep, ?_, ?_⟩)
      · rw [unscanned, hmain]
        refine hscan.trans ?_
        obtain ⟨-, member, list, -, -, -, rfl⟩ | ⟨-, -, rfl⟩ | ⟨-, -, rfl⟩ :=
          scanStep_cases hstep <;> rfl
      · obtain ⟨-, member, list, -, -, -, rfl⟩ | ⟨-, -, rfl⟩ | ⟨-, -, rfl⟩ :=
          scanStep_cases hstep <;> rfl
    · cases hstep
  | start =>
    simp only [nextServer] at hstep
    split at hstep
    · cases hstep
    split at hstep <;> cases hstep
    exact .inr (.inr ⟨trivial, rfl, rfl, rfl⟩)
  | io k n =>
    simp only [nextServer] at hstep
    split at hstep <;> cases hstep
    exact .inr (.inr ⟨trivial, rfl, rfl, rfl⟩)
  | broadcast k i n =>
    simp only [nextServer] at hstep
    split at hstep <;> cases hstep
    exact .inr (.inr ⟨trivial, rfl, rfl, rfl⟩)
  | finish k =>
    simp only [nextServer] at hstep
    split at hstep <;> cases hstep
    exact .inr (.inr ⟨trivial, rfl, rfl, rfl⟩)

/-- The clients of the reports that call for a task. -/
def clientReports (listenfd : ℕ) (evs : List EpollEvent) : List ℕ :=
  (evs.filter (fun ev => decide (ev.fd ≠ listenfd) && ev.epollin)).map EpollEvent.fd

/-- The server with the clients of all the tasks ever put into the queue. -/
structure Ledger where
  server : Server
  queued : List ℕ

def Ledger.start (listenfd : ℕ) (garbage : ℕ → EpollEvent) : Ledger := ⟨setup listenfd garbage, []⟩

/-- The clients of the tasks a step has put into the queue. -/
def newTasks (s s' : Server) : Act → List ℕ
  | .next _ => (s'.queue.drop s.queue.length).map Task.client
  | _ => []

def nextLedger (listenfd : ℕ) (l : Ledger) (a : Act) : Option Ledger :=
  (nextServer listenfd l.server a).map fun s => ⟨s, l.queued ++ newTasks l.server s a⟩

/-- Every report so far has led to a task, in order, or is yet to be looked at. -/
def NoneDropped (listenfd : ℕ) (l : Ledger) : Prop :=
  clientReports listenfd l.server.batches.flatten =
    l.queued ++ clientReports listenfd (unscanned l.server)

/-- The condition on a step: when the loop looks at a client's report, the queue is not full. -/
def RoomForReport (listenfd : ℕ) (l : Ledger) : Act → Prop
  | .next _ => ∀ i nfds, l.server.main = .scan i nfds → (l.server.events i).fd ≠ listenfd →
      (l.server.events i).epollin = true → l.server.queue.length ≠ queueSize
  | _ => True

theorem clientReports_append (listenfd : ℕ) (evs evs' : List EpollEvent) :
    clientReports listenfd (evs ++ evs') =
      clientReports listenfd evs ++ clientReports listenfd evs' := by
  rw [clientReports, List.filter_append, List.map_append]
  rfl

theorem clientReports_cons_client {listenfd : ℕ} {ev : EpollEvent} (hfd : ev.fd ≠ listenfd)
    (hin : ev.epollin = true) (evs : List EpollEvent) :
    clientReports listenfd (ev :: evs) = ev.fd :: clientReports listenfd evs := by
  simp [clientReports, hfd, hin]

theorem clientReports_cons_other {listenfd : ℕ} {ev : EpollEvent}
    (h : ev.fd = listenfd ∨ ev.epollin = false) (evs : List EpollEvent) :
    clientReports listenfd (ev :: evs) = clientReports listenfd evs := by
  rcases h with h | h <;> simp [clientReports, h]

theorem newTasks_of_pool {s s' : Server} {a : Act} (h : a.OfPool) : newTasks s s' a = [] := by
  cases a <;> first | rfl | exact h.elim

/-- What the loop body puts into the queue. -/
theorem newTasks_scanStep {listenfd : ℕ} {s s' : Server} {i nfds : ℕ}
    {conn : Option Clientmember} (h : scanStep listenfd s i nfds conn = some s') :
    newTasks s s' (.next conn) =
      if (s.events i).fd ≠ listenfd ∧ (s.events i).epollin = true ∧ s.queue.length ≠ queueSize then
        [(s.events i).fd]
      else [] := by
  obtain ⟨hfd, member, list, -, -, -, rfl⟩ | ⟨hfd, hin, rfl⟩ | ⟨-, hin, rfl⟩ := scanStep_cases h
  · rw [if_neg fun hall => hall.1 hfd]
    simp [newTasks]
  · by_cases hfull : s.queue.length = queueSize
    · simp [newTasks, hfull]
    · simp [newTasks, hfull, hfd, hin]
  · rw [if_neg fun hall => Bool.noConfusion (hin.symm.trans hall.2.1)]
    simp [newTasks]

/-- Of two accounts of the same reports, the one without a report is short of it. -/
theorem append_ne_append_cons (l l' : List ℕ) (x : ℕ) : l ++ x :: l' ≠ l ++ l' := by
  intro heq
  have hlen := congrArg List.length heq
  simp at hlen

/-- A step drops no report exactly when the queue has room for the one it looks at. -/
theorem noneDropped_step {listenfd : ℕ} {l l' : Ledger} {a : Act} (h : SlotInv l.server)
    (hnone : NoneDropped listenfd l) (hstep : nextLedger listenfd l a = some l') :
    NoneDropped listenfd l' ↔ RoomForReport listenfd l a := by
  obtain ⟨s', hs, rfl⟩ := Option.map_eq_some_iff.mp hstep
  unfold NoneDropped at hnone ⊢
  obtain ⟨batch, rfl, hwait, hnew, hbatches⟩ | ⟨conn, i, nfds, rfl, hmain, hscan, hnew, hbatches⟩ |
    ⟨hpool, -, hnew, hbatches⟩ := nextServer_reports h hs
  · refine iff_of_true ?_ trivial
    have hold : unscanned l.server = [] := by rw [unscanned, hwait]
    rw [hold] at hnone
    dsimp only
    rw [hbatches, hnew, List.flatten_append, clientReports_append, hnone]
    simp [newTasks, clientReports]
  · dsimp only
    rw [hbatches, hnone, hnew, newTasks_scanStep hscan]
    have hroom : RoomForReport listenfd l (.next conn) ↔ ((l.server.events i).fd ≠ listenfd →
        (l.server.events i).epollin = true → l.server.queue.length ≠ queueSize) := by
      constructor
      · intro hall
        exact hall i nfds hmain
      · intro hall i' nfds' hmain'
        cases hmain.symm.trans hmain'
        exact hall
    rw [hroom]
    by_cases hclient : (l.server.events i).fd ≠ listenfd ∧ (l.server.events i).epollin = true
    · rw [clientReports_cons_client hclient.1 hclient.2]
      by_cases hfull : l.server.queue.length = queueSize
      · rw [if_neg fun hall => hall.2.2 hfull, List.append_nil]
        exact iff_of_false (append_ne_append_cons _ _ _) fun hall => hall hclient.1 hclient.2 hfull
      · rw [if_pos ⟨hclient.1, hclient.2, hfull⟩, List.append_assoc]
        exact iff_of_true rfl fun _ _ => hfull
    · rw [if_neg fun hall => hclient ⟨hall.1, hall.2.1⟩, List.append_nil]
      refine iff_of_true ?_ fun hfd hin => (hclient ⟨hfd, hin⟩).elim
      rw [clientReports_cons_other]
      by_cases hfd : (l.server.events i).fd = listenfd
      · exact Or.inl hfd
      · exact Or.inr (Bool.eq_false_iff.mpr fun hin => hclient ⟨hfd, hin⟩)
  · dsimp only
    rw [hbatches, hnew, newTasks_of_pool hpool, List.append_nil]
    refine iff_of_true hnone ?_
    cases a <;> trivial

/-- In every run no report is dropped exactly when the queue has room for each client's report the
loop looks at. -/
theorem none_dropped_iff_room (listenfd : ℕ) (garbage : ℕ → EpollEvent)
    (tr : List (Ledger × Act)) (l : Ledger)
    (h : Run (nextLedger listenfd) (.start listenfd garbage) tr l) :
    Throughout (NoneDropped listenfd) tr l ↔ ∀ p ∈ tr, RoomForReport listenfd p.1 p.2 := by
  refine h.throughout_iff (I := fun l => SlotInv l.server) (RoomForReport listenfd) ?_ ?_
    (setup_slotInv listenfd garbage) rfl
  · intro l a l' hinv hstep
    obtain ⟨s', hs, rfl⟩ := Option.map_eq_some_iff.mp hstep
    exact (ownClient_step hinv hs).1
  · exact fun _ _ _ hinv hnone hstep => noneDropped_step hinv hnone hstep

/-- The listening socket is 3; clients 5 and 6 connect, and 5 sends something. -/
def readLedger : Ledger :=
  (exec (nextLedger 3) (.start 3 fun _ => ⟨0, false, false⟩) readActs).get rfl

theorem none_dropped_iff_room_read :
    Throughout (NoneDropped 3)
        (trace (nextLedger 3) (.start 3 fun _ => ⟨0, false, false⟩) readActs) readLedger ↔
      ∀ p ∈ trace (nextLedger 3) (.start 3 fun _ => ⟨0, false, false⟩) readActs,
        RoomForReport 3 p.1 p.2 :=
  none_dropped_iff_room 3 _ _ _ (.of_exec (Option.some_get _).symm)

/-- One report on client `fd`, looked at before any pool thread takes a task. -/
theorem report_step {l : Ledger} {fd : ℕ} (hwait : l.server.main = .wait)
    (hreg : fd ∈ l.server.registered) (hfd : fd ≠ 3) :
    ∃ l', Reachable (nextLedger 3) l l' ∧ l'.server.main = .wait ∧
      l'.server.registered = l.server.registered ∧
      l'.server.batches = l.server.batches ++ [[⟨fd, true, false⟩]] ∧
      (l.server.queue.length ≠ queueSize →
        l'.server.queue.length = l.server.queue.length+1 ∧ l'.queued = l.queued ++ [fd]) ∧
      (l.server.queue.length = queueSize → l'.queued = l.queued) := by
  have hone : 1 ≤ maxConnect := by decide
  have hreport : nextLedger 3 l (.epollWait [⟨fd, true, false⟩]) = some
      ⟨{ l.server with
          events := writeBlock l.server.events [⟨fd, true, false⟩]
          main := .scan 0 1
          batches := l.server.batches ++ [[⟨fd, true, false⟩]] }, l.queued⟩ := by
    simp [nextLedger, nextServer, newTasks, hwait, hreg, hone]
  have hnext : nextLedger 3 ⟨{ l.server with
          events := writeBlock l.server.events [⟨fd, true, false⟩]
          main := .scan 0 1
          batches := l.server.batches ++ [[⟨fd, true, false⟩]] }, l.queued⟩ (.next none) = some
      ⟨{ l.server with
          events := writeBlock l.server.events [⟨fd, true, false⟩]
          queue := if l.server.queue.length = queueSize then l.server.queue
            else l.server.queue ++ [⟨0, fd, l.server.batches.length+1⟩]
          main := .wait
          batches := l.server.batches ++ [[⟨fd, true, false⟩]] },
        l.queued ++ if l.server.queue.length = queueSize then [] else [fd]⟩ := by
    by_cases hfull : l.server.queue.length = queueSize <;>
      simp [nextLedger, nextServer, scanStep, newTasks, writeBlock, MainPc.advance, hfd, hfull]
  refine ⟨_, ((Reachable.refl l).tail hreport).tail hnext, rfl, rfl, rfl, ?_, ?_⟩
  · intro hroom
    simp [hroom]
  · intro hfull
    simp [hfull]

/-- As long as no pool thread takes a task, the reports on client 5 fill the queue. -/
theorem queue_fills {l : Ledger} (hwait : l.server.main = .wait) (hfive : 5 ∈ l.server.registered)
    (hempty : l.server.queue = []) (hsix : 6 ∉ l.queued) {n : ℕ} (hn : n ≤ queueSize) :
    ∃ l', Reachable (nextLedger 3) l l' ∧ l'.server.main = .wait ∧
      l'.server.registered = l.server.registered ∧ l'.server.queue.length = n ∧ 6 ∉ l'.queued := by
  induction n with
  | zero => exact ⟨l, .refl l, hwait, rfl, by rw [hempty]; rfl, hsix⟩
  | succ n ih =>
    obtain ⟨m, hreach, hmwait, hmreg, hlen, hmsix⟩ := ih (by omega)
    obtain ⟨m', hreach', hwait', hreg', -, hroom, -⟩ :=
      report_step hmwait (hmreg ▸ hfive) (by decide : 5 ≠ 3)
    obtain ⟨hlen', hqueued⟩ := hroom (by omega)
    refine ⟨m', hreach.trans hreach', hwait', hreg'.trans hmreg, hlen'.trans (by rw [hlen]), ?_⟩
    rw [hqueued, List.mem_append, List.mem_singleton]
    rintro (hmem | heq)
    · exact hmsix hmem
    · cases heq

/-- The two clients have connected. -/
def connectedLedger : Ledger :=
  (exec (nextLedger 3) (.start 3 fun _ => ⟨0, false, false⟩) (readActs.take 4)).get rfl

/-- Client 5 fills the queue; a report on client 6 is dropped, and it never had a task. -/
theorem report_dropped_when_full :
    ∃ l, Reachable (nextLedger 3) (.start 3 fun _ => ⟨0, false, false⟩) l ∧
      l.server.main = .wait ∧ 6 ∈ clientReports 3 l.server.batches.flatten ∧ 6 ∉ l.queued ∧
      ¬ NoneDropped 3 l := by
  have hconnect : Reachable (nextLedger 3) (.start 3 fun _ => ⟨0, false, false⟩)
      connectedLedger :=
    .of_exec (Option.some_get _).symm
  obtain ⟨l, hreach, hwait, hreg, hlen, hsix⟩ :=
    queue_fills (l := connectedLedger) rfl (by decide) rfl (by decide) (Nat.le_refl queueSize)
  obtain ⟨l', hreach', hwait', -, hbatches, -, hfull⟩ :=
    report_step hwait (hreg ▸ (by decide) : 6 ∈ l.server.registered) (by decide : 6 ≠ 3)
  have hmem : 6 ∈ clientReports 3 l'.server.batches.flatten := by
    rw [hbatches, List.flatten_append, clientReports_append]
    exact List.mem_append_right _ (by decide)
  have hnot : 6 ∉ l'.queued := (hfull hlen).symm ▸ hsix
  refine ⟨l', (hconnect.trans hreach).trans hreach', hwait', hmem, hnot, fun hnone => ?_⟩
  -- nothing of the batch is left to be looked at
  have hdone : clientReports 3 (unscanned l'.server) = [] := by
    rw [unscanned, hwait']
    rfl
  rw [NoneDropped, hdone, List.append_nil] at hnone
  exact hnot (hnone ▸ hmem)

end LinuxPrograms.EpollTcp
