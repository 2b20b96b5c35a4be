import LinuxPrograms.EpollTcpReports

/-! The connections waiting at the listening socket. It is registered edge-triggered: however many
connections have arrived, `epoll_wait` reports it once, and the loop accepts one connection a
report. -/
namespace LinuxPrograms.EpollTcp
open Lib

/-- The server, the addresses of the connections yet to be accepted, and whether `epoll_wait` has an
edge of the listening socket to report. -/
structure Listener where
  server : Server
  backlog : List String
  edge : Bool

def Listener.start (listenfd : ℕ) (garbage : ℕ → EpollEvent) : Listener :=
  ⟨setup listenfd garbage, [], false⟩

inductive ListenAct
  | arrive (ip : String)
  | server (a : Act)

/-- How many of the events are about the listening socket. -/
def listenReports (listenfd : ℕ) (evs : List EpollEvent) : ℕ :=
  evs.countP (fun ev => decide (ev.fd = listenfd))

/-- The loop is at an event of the listening socket. -/
def AtListener (listenfd : ℕ) (s : Server) : Prop :=
  ∃ i nfds, s.main = .scan i nfds ∧ (s.events i).fd = listenfd

instance (listenfd : ℕ) (s : Server) : Decidable (AtListener listenfd s) :=
  match h : s.main with
  | .wait => .isFalse fun ⟨_, _, hmain, _⟩ => MainPc.noConfusion (h.symm.trans hmain)
  | .scan i nfds =>
    decidable_of_iff ((s.events i).fd = listenfd)
      ⟨fun hfd => ⟨i, nfds, h, hfd⟩, fun ⟨_, _, hmain, hfd⟩ => by
        cases h.symm.trans hmain
        exact hfd⟩

/-- The kernel's side of a step of the server: the backlog and the edge afterwards. `epoll_wait` may
leave the edge for later; `accept` takes the connection that has waited longest, and when there is
none the server exits. -/
def Listener.kernel (listenfd : ℕ) (b : Listener) : Act → Option (List String × Bool)
  | .epollWait batch =>
    if listenReports listenfd batch ≤ b.edge.toNat then
      some (b.backlog, b.edge && decide (listenReports listenfd batch = 0))
    else none
  | .next conn =>
    if AtListener listenfd b.server then
      match conn, b.backlog with
      | some member, ip :: backlog => if member.ip = ip then some (backlog, b.edge) else none
      | _, _ => none
    else some (b.backlog, b.edge)
  | _ => some (b.backlog, b.edge)

/-- A connection that arrives makes an edge, unless one is there already. -/
def nextListener (listenfd : ℕ) (b : Listener) : ListenAct → Option Listener
  | .arrive ip => some { b with backlog := b.backlog ++ [ip], edge := true }
  | .server a =>
    (b.kernel listenfd a).bind fun k =>
      (nextServer listenfd b.server a).map fun s => ⟨s, k.1, k.2⟩

/-- The condition on a step: a connection arrives when no edge is waiting to be reported. -/
def ArrivesAlone (b : Listener) : ListenAct → Prop
  | .arrive _ => b.edge = false
  | .server _ => True

instance (b : Listener) (a : ListenAct) : Decidable (ArrivesAlone b a) := by
  cases a <;> unfold ArrivesAlone <;> infer_instance

/-- The connections that no edge or report accounts for. -/
def unaccounted (listenfd : ℕ) (b : Listener) : ℤ :=
  b.backlog.length-b.edge.toNat-listenReports listenfd (unscanned b.server)

theorem listenReports_cons (listenfd : ℕ) (ev : EpollEvent) (evs : List EpollEvent) :
    listenReports listenfd (ev :: evs) =
      listenReports listenfd evs+if ev.fd = listenfd then 1 else 0 := by
  simp [listenReports, List.countP_cons]

theorem nextListener_server {listenfd : ℕ} {b b' : Listener} {a : Act}
    (h : nextListener listenfd b (.server a) = some b') :
    b.kernel listenfd a = some (b'.backlog, b'.edge) ∧
      nextServer listenfd b.server a = some b'.server := by
  obtain ⟨k, hk, h⟩ := Option.bind_eq_some_iff.mp h
  obtain ⟨s, hs, rfl⟩ := Option.map_eq_some_iff.mp h
  exact ⟨hk, hs⟩

/-- `accept` takes one connection from the backlog. -/
theorem kernel_next_atListener {listenfd : ℕ} {b b' : Listener} {conn : Option Clientmember}
    (hat : AtListener listenfd b.server)
    (h : b.kernel listenfd (.next conn) = some (b'.backlog, b'.edge)) :
    b.backlog.length = b'.backlog.length+1 ∧ b'.edge = b.edge := by
  simp only [Listener.kernel, if_pos hat] at h
  split at h
  · next hbacklog =>
    split at h
    · obtain ⟨hrest, hedge⟩ := Prod.mk.inj (Option.some.inj h)
      rw [hbacklog, ← hrest]
      exact ⟨rfl, hedge.symm⟩
    · cases h
  · cases h

theorem kernel_epollWait {listenfd : ℕ} {b b' : Listener} {batch : List EpollEvent}
    (h : b.kernel listenfd (.epollWait batch) = some (b'.backlog, b'.edge)) :
    b'.backlog = b.backlog ∧ b'.edge.toNat+listenReports listenfd batch = b.edge.toNat := by
  simp only [Listener.kernel] at h
  split at h
  · next hle =>
    obtain ⟨hbacklog, hedge⟩ := Prod.mk.inj (Option.some.inj h)
    refine ⟨hbacklog.symm, ?_⟩
    rw [← hedge]
    cases hb : b.edge with
    | false =>
      rw [hb] at hle
      simpa using hle
    | true =>
      -- the edge is reported or it is not
      rw [hb] at hle
      by_cases hzero : listenReports listenfd batch = 0
      · simp [hzero]
      · simp only [Bool.toNat_true] at hle
        simp [hzero]
        omega
  · cases h

theorem kernel_other {listenfd : ℕ} {b b' : Listener} {a : Act}
    (ha : a.OfPool ∨ ∃ conn, a = .next conn ∧ ¬ AtListener listenfd b.server)
    (h : b.kernel listenfd a = some (b'.backlog, b'.edge)) :
    b'.backlog = b.backlog ∧ b'.edge = b.edge := by
  have hsame : b.kernel listenfd a = some (b.backlog, b.edge) := by
    rcases ha with hpool | ⟨conn, rfl, hat⟩
    · cases a <;> first | rfl | exact False.elim hpool
    · exact if_neg hat
  exact Prod.mk.inj (Option.some.inj (h.symm.trans hsame))

theorem SlotInv.listener {listenfd : ℕ} {b b' : Listener} {a : ListenAct} (h : SlotInv b.server)
    (hstep : nextListener listenfd b a = some b') : SlotInv b'.server := by
  cases a with
  | arrive ip =>
    cases hstep
    exact h
  | server a => exact (ownClient_step h (nextListener_server hstep).2).1

/-- Only a connection that arrives behind a waiting edge is not accounted for. -/
theorem unaccounted_step {listenfd : ℕ} {b b' : Listener} {a : ListenAct} (h : SlotInv b.server)
    (hstep : nextListener listenfd b a = some b') :
    unaccounted listenfd b' = unaccounted listenfd b+if ArrivesAlone b a then 0 else 1 := by
  cases a with
  | arrive ip =>
    cases hstep
    cases hedge : b.edge
    · simp [unaccounted, ArrivesAlone, hedge]
    · simp [unaccounted, ArrivesAlone, hedge]
      omega
  | server a =>
    obtain ⟨hk, hs⟩ := nextListener_server hstep
    rw [if_pos (show ArrivesAlone b (.server a) from trivial), Int.add_zero]
    unfold unaccounted
    obtain ⟨batch, rfl, hwait, hnew, -⟩ | ⟨conn, i, nfds, rfl, hmain, -, hnew, -⟩ |
      ⟨hpool, -, hnew, -⟩ := nextServer_reports h hs
    -- the edge becomes a report, a report becomes an accepted connection, or neither
    · have hold : unscanned b.server = [] := by rw [unscanned, hwait]
      have hempty : listenReports listenfd [] = 0 := rfl
      obtain ⟨hbacklog, hedge⟩ := kernel_epollWait hk
      rw [hnew, hold, hbacklog, hempty]
      omega
    · rw [hnew, listenReports_cons]
      by_cases hfd : (b.server.events i).fd = listenfd
      · obtain ⟨hlen, hedge⟩ := kernel_next_atListener ⟨i, nfds, hmain, hfd⟩ hk
        rw [if_pos hfd, hedge]
        omega
      · have hat : ¬ AtListener listenfd b.server := by
          rintro ⟨i', nfds', hmain', hfd'⟩
          cases hmain.symm.trans hmain'
          exact hfd hfd'
        obtain ⟨hbacklog, hedge⟩ := kernel_other (Or.inr ⟨conn, rfl, hat⟩) hk
        rw [if_neg hfd, hbacklog, hedge, Nat.add_zero]
    · obtain ⟨hbacklog, hedge⟩ := kernel_other (Or.inl hpool) hk
      rw [hnew, hbacklog, hedge]

theorem unaccounted_blocked {listenfd : ℕ} {b : Listener} (hwait : b.server.main = .wait)
    (hedge : b.edge = false) : unaccounted listenfd b = b.backlog.length := by
  rw [unaccounted, hedge, unscanned, hwait]
  simp [listenReports]

/-- Whenever the server blocks and no edge is waiting, the backlog is empty exactly when every
connection so far arrived alone. -/
theorem backlog_empty_iff_arrived_alone (listenfd : ℕ) (garbage : ℕ → EpollEvent)
    (tr : List (Listener × ListenAct)) (b : Listener)
    (h : Run (nextListener listenfd) (.start listenfd garbage) tr b)
    (hwait : b.server.main = .wait) (hedge : b.edge = false) :
    b.backlog = [] ↔ ∀ p ∈ tr, ArrivesAlone p.1 p.2 := by
  have hkept := h.kept_iff (I := fun b => SlotInv b.server) (unaccounted listenfd) ArrivesAlone
    (fun _ _ _ hinv hstep => hinv.listener hstep)
    (fun b a b' hinv hstep => by
      rw [unaccounted_step hinv hstep]
      split <;> omega)
    (fun b a b' hinv hstep => by
      rw [unaccounted_step hinv hstep]
      split
      · exact iff_of_true (Int.add_zero _) ‹_›
      · exact iff_of_false (by omega) ‹_›)
    (setup_slotInv listenfd garbage)
  have hstart : unaccounted listenfd (.start listenfd garbage) = 0 := rfl
  rw [← hkept, hstart, unaccounted_blocked hwait hedge, ← List.length_eq_zero_iff]
  exact Int.natCast_eq_zero.symm

/-- One connection arrives and is accepted. -/
def oneAccepted : Listener :=
  (exec (nextListener 3) (.start 3 fun _ => ⟨0, false, false⟩)
    [.arrive "10.0.0.1", .server (.epollWait [⟨3, true, false⟩]),
      .server (.next (some ⟨5, "10.0.0.1"⟩))]).get rfl

theorem backlog_empty_iff_arrived_alone_one :
    oneAccepted.backlog = [] ↔
      ∀ p ∈ trace (nextListener 3) (.start 3 fun _ => ⟨0, false, false⟩)
        [.arrive "10.0.0.1", .server (.epollWait [⟨3, true, false⟩]),
          .server (.next (some ⟨5, "10.0.0.1"⟩))], ArrivesAlone p.1 p.2 :=
  backlog_empty_iff_arrived_alone 3 _ _ oneAccepted (.of_exec (Option.some_get _).symm) rfl rfl

/-- Two connections arrive before `epoll_wait` returns. The loop accepts the first, and blocks. -/
def oneStranded : Listener :=
  (exec (nextListener 3) (.start 3 fun _ => ⟨0, false, false⟩)
    [.arrive "10.0.0.1", .arrive "10.0.0.2", .server (.epollWait [⟨3, true, false⟩]),
      .server (.next (some ⟨5, "10.0.0.1"⟩))]).get rfl

theorem second_arrival_stranded :
    ¬ ∀ (listenfd : ℕ) (garbage : ℕ → EpollEvent) (b : Listener),
      Reachable (nextListener listenfd) (.start listenfd garbage) b → b.server.main = .wait →
        b.edge = false → b.backlog = [] := by
  intro hall
  have hempty := hall 3 _ oneStranded (.of_exec (Option.some_get _).symm) rfl rfl
  exact absurd hempty (by decide)

end LinuxPrograms.EpollTcp
