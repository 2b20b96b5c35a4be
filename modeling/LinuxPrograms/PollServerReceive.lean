import LinuxPrograms.PollServerSteps

/-! What a `ReceiveLoop` pass does to connections that have nothing to receive. The test of the
pass reads the descriptor of the watch entry where `revents` was meant, so it never fails. -/
namespace LinuxPrograms.PollServer
open Lib

def POLLERR : BitVec 32 := 8

def POLLHUP : BitVec 32 := 16

def POLLNVAL : BitVec 32 := 32

/-- `poll` reported input, an error or a hang-up in the watch entry of connection `i`. -/
def Ready (s : Server) (i : ℕ) : Prop :=
  ∃ index, findIndex s (s.pClients i).socket = some index ∧ 0 ≤ index ∧
    (s.watchedfds index.toNat).revents &&& (POLLIN ||| POLLERR ||| POLLHUP ||| POLLNVAL) ≠ 0

/-- A pass with the slots whose socket `recv` was called on. -/
structure ReceivePass where
  server : Server
  called : List ℕ

/-- The condition under which a round calls `recv`. -/
def callsRecv (s : Server) (i : ℕ) : Bool :=
  (s.pClients i).inUse && watchedWith s (s.pClients i).socket POLLIN == some true

def receivePassStep (recv : ℕ → ℤ) (p : ReceivePass) (i : ℕ) : Option ReceivePass :=
  (receiveStep recv p.server i).map fun s =>
    ⟨s, p.called ++ if callsRecv p.server i then [i] else []⟩

/-- `ReceiveLoop` with its calls of `recv`. -/
def receivePass (s : Server) (recv : ℕ → ℤ) : Option ReceivePass :=
  if s.connectionsActive = 0 then some ⟨s, []⟩
  else slots.foldlM (receivePassStep recv) ⟨s, []⟩

theorem foldlM_receivePassStep (recv : ℕ → ℤ) (l : List ℕ) (p : ReceivePass) :
    (l.foldlM (receivePassStep recv) p).map ReceivePass.server =
      l.foldlM (receiveStep recv) p.server := by
  induction l generalizing p with
  | nil => rfl
  | cons i l ih =>
    rw [List.foldlM_cons, List.foldlM_cons]
    cases h : receiveStep recv p.server i with
    | none => simp [receivePassStep, h]
    | some s => simp [receivePassStep, h, ih]

/-- Without the record of the calls the pass is `ReceiveLoop`. -/
theorem receivePass_server (s : Server) (recv : ℕ → ℤ) :
    (receivePass s recv).map ReceivePass.server = receiveLoop s recv := by
  unfold receivePass receiveLoop
  split
  · rfl
  · exact foldlM_receivePassStep recv slots ⟨s, []⟩

/-- Nothing but the slots of `who`, the watch entries of their sockets, and these descriptors
differs. -/
structure OnlyTouches (who : Set ℕ) (s t : Server) : Prop where
  clients : ∀ i, i ∉ who → t.pClients i = s.pClients i
  watched : ∀ j, (∀ i ∈ who, (s.pClients i).socket ≠ (s.watchedfds j).fd) →
    t.watchedfds j = s.watchedfds j
  opened : ∀ fd, (∀ i ∈ who, (s.pClients i).socket ≠ fd) → t.opened fd = s.opened fd

theorem OnlyTouches.refl (who : Set ℕ) (s : Server) : OnlyTouches who s s :=
  ⟨fun _ _ => rfl, fun _ _ => rfl, fun _ _ => rfl⟩

theorem OnlyTouches.mono {who who' : Set ℕ} {s t : Server} (h : OnlyTouches who s t)
    (hsub : who ⊆ who') : OnlyTouches who' s t where
  clients i hi := h.clients i fun hmem => hi (hsub hmem)
  watched j hj := h.watched j fun i hi => hj i (hsub hi)
  opened fd hfd := h.opened fd fun i hi => hfd i (hsub hi)

/-- Slots touched later count with the sockets they had at first. -/
theorem OnlyTouches.trans {who : Set ℕ} {s t u : Server} (h : OnlyTouches who s t)
    {who' : Set ℕ} (h' : OnlyTouches who' t u)
    (hfirst : ∀ i ∈ who', (t.pClients i).socket = (s.pClients i).socket) :
    OnlyTouches (who ∪ who') s u where
  clients i hi := by
    rw [h'.clients i fun hmem => hi (Or.inr hmem), h.clients i fun hmem => hi (Or.inl hmem)]
  watched j hj := by
    have hst := h.watched j fun i hi => hj i (Or.inl hi)
    have htu := h'.watched j fun i hi => by
      rw [hfirst i hi, hst]
      exact hj i (Or.inr hi)
    rw [htu, hst]
  opened fd hfd := by
    have htu := h'.opened fd fun i hi => by
      rw [hfirst i hi]
      exact hfd i (Or.inr hi)
    rw [htu, h.opened fd fun i hi => hfd i (Or.inl hi)]

theorem unwatch_watchedfds_of_ne {s : Server} {y : ℤ} {j : ℕ} (h : (s.watchedfds j).fd ≠ y) :
    (s.unwatch y).watchedfds j = s.watchedfds j := by
  unfold Server.unwatch
  split
  · rename_i k hfind
    have hk : (s.watchedfds k).fd = y := by simpa using List.find?_some hfind
    have hjk : j ≠ k := by
      rintro rfl
      exact h hk
    exact Function.update_of_ne hjk _ _
  · rfl

theorem closeConnection_onlyTouches (s : Server) (i : ℕ) :
    OnlyTouches {i} s (closeConnection s i) := by
  by_cases hactive : s.connectionsActive = 0
  · rw [closeConnection_inactive hactive]
    exact .refl _ s
  · refine ⟨fun k hk => ?_, fun j hj => ?_, fun fd hfd => ?_⟩
    · rw [closeConnection_pClients hactive]
      exact Function.update_of_ne hk _ _
    · rw [closeConnection_active hactive]
      exact unwatch_watchedfds_of_ne (hj i rfl).symm
    · rw [closeConnection_active hactive]
      exact Function.update_of_ne (hfd i rfl).symm _ _

theorem setClient_onlyTouches (s : Server) (i : ℕ) (c : Connection) :
    OnlyTouches {i} s (s.setClient i c) :=
  ⟨fun _ hk => Function.update_of_ne hk _ _, fun _ _ => rfl, fun _ _ => rfl⟩

/-- The test of a pass, when it can be made, succeeds. -/
theorem watchedWith_of_mask {s : Server} {socket : ℤ} {mask : BitVec 32} (hmask : mask ≠ 0)
    {b : Bool} (h : watchedWith s socket mask = some b) : b = true := by
  unfold watchedWith at h
  split at h
  · cases h
  · split at h
    · cases h
    · cases h
      -- the test is of `fd | mask`, which has the bits of `mask`
      apply decide_eq_true
      intro hzero
      exact hmask (BitVec.or_eq_zero_iff.mp hzero).2

/-- What a round does. -/
theorem receiveStep_spec {recv : ℕ → ℤ} {s t : Server} {i : ℕ} (h : receiveStep recv s i = some t) :
    callsRecv s i = (s.pClients i).inUse ∧
      OnlyTouches {k | k = i ∧ (s.pClients k).inUse = true} s t := by
  unfold receiveStep at h
  split at h
  case isTrue huse =>
    have hsub : {i} ⊆ {k | k = i ∧ (s.pClients k).inUse = true} := by
      rintro k rfl
      exact ⟨rfl, huse⟩
    split at h
    · cases h
    · rename_i hwatched
      cases watchedWith_of_mask (by decide) hwatched
    · rename_i hwatched
      refine ⟨by simp [callsRecv, huse, hwatched], ?_⟩
      simp only at h
      split at h
      · cases h
        exact (setClient_onlyTouches s i _).mono hsub
      · cases h
        exact (closeConnection_onlyTouches s i).mono hsub
  case isFalse huse =>
    cases h
    refine ⟨?_, .refl _ s⟩
    rw [callsRecv, Bool.eq_false_iff.mpr huse, Bool.false_and]

/-- The rounds over the slots of `l`: the induction is on `l`, and a slot not handled yet is as
it was. -/
theorem foldlM_receivePassStep_spec {recv : ℕ → ℤ} {l : List ℕ} (hl : l.Nodup)
    {p q : ReceivePass} (h : l.foldlM (receivePassStep recv) p = some q) :
    q.called = p.called ++ l.filter (fun i => (p.server.pClients i).inUse) ∧
      OnlyTouches {i | i ∈ l ∧ (p.server.pClients i).inUse = true} p.server q.server := by
  induction l generalizing p with
  | nil =>
    cases h
    exact ⟨(List.append_nil _).symm, .refl _ _⟩
  | cons i l ih =>
    rw [List.foldlM_cons] at h
    obtain ⟨p', hround, h⟩ := Option.bind_eq_some_iff.mp h
    obtain ⟨t, hstep, rfl⟩ := Option.map_eq_some_iff.mp hround
    obtain ⟨hcalls, htouch⟩ := receiveStep_spec hstep
    obtain ⟨hcalled, hrest⟩ := ih (List.nodup_cons.mp hl).2 h
    -- the slots still to come are other ones
    have hsame : ∀ k ∈ l, t.pClients k = p.server.pClients k := by
      intro k hk
      apply htouch.clients
      rintro ⟨rfl, _⟩
      exact (List.nodup_cons.mp hl).1 hk
    constructor
    · rw [hcalled, List.append_assoc, List.filter_cons, hcalls]
      have hfilter : l.filter (fun k => (t.pClients k).inUse) =
          l.filter (fun k => (p.server.pClients k).inUse) :=
        List.filter_congr fun k hk => by rw [hsame k hk]
      simp only [hfilter]
      cases (p.server.pClients i).inUse <;> rfl
    · refine (htouch.trans hrest fun k hk => by rw [hsame k hk.1]).mono ?_
      rintro k (⟨rfl, huse⟩ | ⟨hk, huse⟩)
      · exact ⟨List.mem_cons_self, huse⟩
      · exact ⟨List.mem_cons_of_mem _ hk, hsame k hk ▸ huse⟩

/-- The pass calls `recv` on every connection in use, and touches no other. -/
theorem receivePass_spec {s : Server} {recv : ℕ → ℤ} {p : ReceivePass}
    (h : receivePass s recv = some p) (hactive : s.connectionsActive ≠ 0) :
    p.called = slots.filter (fun i => (s.pClients i).inUse) ∧
      OnlyTouches {i | i ∈ slots ∧ (s.pClients i).inUse = true} s p.server := by
  rw [receivePass, if_neg hactive] at h
  obtain ⟨hcalled, htouch⟩ := foldlM_receivePassStep_spec List.nodup_range h
  exact ⟨hcalled, htouch⟩

/-- The connections in use that are ready. -/
def readyClients (s : Server) : Set ℕ :=
  {i | i ∈ slots ∧ (s.pClients i).inUse = true ∧ Ready s i}

/-- `recv` is called on, and the pass changes, nothing but connections that are ready. -/
def LeavesQuiet (s : Server) (p : ReceivePass) : Prop :=
  (∀ i ∈ p.called, i ∈ readyClients s) ∧ OnlyTouches (readyClients s) s p.server

/-- Quiet connections are left alone exactly when the pass returns at once or there are none. -/
theorem leavesQuiet_iff_all_ready {s : Server} {recv : ℕ → ℤ} {p : ReceivePass}
    (h : receivePass s recv = some p) :
    LeavesQuiet s p ↔
      s.connectionsActive = 0 ∨ ∀ i ∈ slots, (s.pClients i).inUse = true → Ready s i := by
  by_cases hactive : s.connectionsActive = 0
  · rw [receivePass, if_pos hactive] at h
    cases h
    exact iff_of_true ⟨nofun, .refl _ s⟩ (Or.inl hactive)
  · obtain ⟨hcalled, htouch⟩ := receivePass_spec h hactive
    constructor
    · rintro ⟨hready, _⟩
      refine Or.inr fun i hi huse => (hready i ?_).2.2
      rw [hcalled]
      exact List.mem_filter.mpr ⟨hi, huse⟩
    · rintro (hzero | hall)
      · exact absurd hzero hactive
      · refine ⟨fun i hi => ?_, htouch.mono fun i hi => ⟨hi.1, hi.2, hall i hi.1 hi.2⟩⟩
        rw [hcalled] at hi
        obtain ⟨hmem, huse⟩ := List.mem_filter.mp hi
        exact ⟨hmem, huse, hall i hmem huse⟩

/-- One client has connected, in the iteration whose `poll` reported the listening socket. -/
def firstClient : Server :=
  (newConnection { initializeServer 3 fun _ => false with
    watchedfds := fun j => { (initializeServer 3 fun _ => false).watchedfds j with
      revents := if j = 0 then POLLIN else 0 } } 3 7).2

theorem firstClient_reachable :
    Reachable nextServer (initializeServer 3 fun _ => false) firstClient := by
  have hpoll : Reachable nextServer (initializeServer 3 fun _ => false) _ :=
    (Reachable.refl _).tail (a := .poll fun j => if j = 0 then POLLIN else 0) rfl
  exact hpoll.tail (a := .newConnection 3 7) rfl

theorem firstClient_called :
    (receivePass firstClient fun _ => -1).map ReceivePass.called = some [2] := by decide +kernel

theorem firstClient_quiet : ¬ Ready firstClient 2 := by
  rintro ⟨index, hindex, _, hrevents⟩
  have hthree : findIndex firstClient (firstClient.pClients 2).socket = some 3 := by decide +kernel
  rw [hthree, Option.some.injEq] at hindex
  rw [← hindex] at hrevents
  exact hrevents (by decide +kernel)

/-- The client has sent nothing yet, `recv` returns -1, and its connection is closed. -/
theorem new_client_not_left_quiet :
    ∃ s p, Reachable nextServer (initializeServer 3 fun _ => false) s ∧
      receivePass s (fun _ => -1) = some p ∧ ¬ LeavesQuiet s p := by
  obtain ⟨p, hp, hcalled⟩ := Option.map_eq_some_iff.mp firstClient_called
  refine ⟨firstClient, p, firstClient_reachable, hp, fun hquiet => ?_⟩
  have hmem : 2 ∈ p.called := by simp [hcalled]
  exact firstClient_quiet (hquiet.1 2 hmem).2.2

/-- The equivalence for that pass. -/
theorem firstClient_leavesQuiet_iff :
    ∃ p, receivePass firstClient (fun _ => -1) = some p ∧
      (LeavesQuiet firstClient p ↔ firstClient.connectionsActive = 0 ∨
        ∀ i ∈ slots, (firstClient.pClients i).inUse = true → Ready firstClient i) := by
  obtain ⟨p, hp, _⟩ := Option.map_eq_some_iff.mp firstClient_called
  exact ⟨p, hp, leavesQuiet_iff_all_ready hp⟩

end LinuxPrograms.PollServer
