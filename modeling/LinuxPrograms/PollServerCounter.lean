import LinuxPrograms.PollServerTables

/-! The counter of active connections and the number of slots in use. `TransmitPendingLoop` also
closes the slots that are not in use, and each such call takes one from the counter while there is
something to take. -/
namespace LinuxPrograms.PollServer
open Lib

/-- The number of slots in use. -/
def Server.slotsInUse (s : Server) : ℕ := slots.countP (fun i => (s.pClients i).inUse)

def CounterExact (s : Server) : Prop := s.connectionsActive = s.slotsInUse

instance (s : Server) : Decidable (CounterExact s) :=
  inferInstanceAs (Decidable (s.connectionsActive = s.slotsInUse))

/-- How many slots in use the counter misses. -/
def Server.missed (s : Server) : ℤ := s.slotsInUse-s.connectionsActive

theorem counterExact_iff {s : Server} : CounterExact s ↔ s.missed = 0 := by
  rw [CounterExact, Server.missed, Int.sub_eq_zero, eq_comm]

theorem sockets_length (s : Server) : s.sockets.length = s.slotsInUse := by
  rw [Server.sockets, held_length]
  apply List.countP_congr
  intro i _
  cases huse : (s.pClients i).inUse with
  | false => rw [slotSocket_of_unused huse]; rfl
  | true => rw [slotSocket_of_use huse]; rfl

/-- A slot that stops or starts being in use changes the number by one. -/
theorem slotsInUse_update {s s' : Server} {i : ℕ} {c : Connection} (hi : i ∈ slots)
    (heq : s'.pClients = Function.update s.pClients i c) :
    s'.slotsInUse+(s.pClients i).inUse.toNat = s.slotsInUse+c.inUse.toNat := by
  have hlength (c : Connection) : c.slotSocket.toList.length = c.inUse.toNat := by
    cases huse : c.inUse with
    | false => rw [slotSocket_of_unused huse]; rfl
    | true => rw [slotSocket_of_use huse]; rfl
  obtain ⟨rest, hold, hnew⟩ := setClient_perm (s := s) hi c
  have hbefore := hold.length_eq
  have hafter := hnew.length_eq
  rw [List.length_append, hlength, sockets_length] at hbefore hafter
  have hsame : s'.slotsInUse = (s.setClient i c).slotsInUse := by
    rw [Server.slotsInUse, heq]
    rfl
  omega

theorem SameTables.missed {s t : Server} (h : SameTables s t) : t.missed = s.missed := by
  have hcount : t.slotsInUse = s.slotsInUse := by
    rw [← sockets_length, ← sockets_length, h.sockets]
  rw [Server.missed, Server.missed, hcount, h.connectionsActive]

theorem closeConnection_connectionsActive {s : Server} (h : s.connectionsActive ≠ 0) (i : ℕ) :
    (closeConnection s i).connectionsActive = s.connectionsActive-1 := by
  rw [closeConnection_active h]

/-- Closing a connection keeps counter and slots in step, also when the counter is 0. -/
theorem missed_close_inUse {s : Server} {i : ℕ} (hi : i ∈ slots)
    (huse : (s.pClients i).inUse = true) : (closeConnection s i).missed = s.missed := by
  by_cases hactive : s.connectionsActive = 0
  · rw [closeConnection_inactive hactive]
  · have hcount := slotsInUse_update hi (closeConnection_pClients hactive i)
    rw [huse] at hcount
    have hcleared : Connection.cleared.inUse.toNat = 0 := rfl
    rw [Server.missed, Server.missed, closeConnection_connectionsActive hactive]
    simp only [Bool.toNat_true] at hcount
    omega

/-- Closing a slot that is not in use lowers the counter alone. -/
theorem missed_close_unused {s : Server} {i : ℕ} (hi : i ∈ slots)
    (hactive : s.connectionsActive ≠ 0) (huse : (s.pClients i).inUse = false) :
    (closeConnection s i).missed = s.missed+1 := by
  have hcount := slotsInUse_update hi (closeConnection_pClients hactive i)
  rw [huse] at hcount
  have hcleared : Connection.cleared.inUse.toNat = 0 := rfl
  rw [Server.missed, Server.missed, closeConnection_connectionsActive hactive]
  simp only [Bool.toNat_false] at hcount
  omega

theorem missed_connect {s : Server} {i : ℕ} (hi : i ∈ slots)
    (huse : (s.pClients i).inUse = false) (serverSocket peerSocket : ℤ) :
    (s.connect i serverSocket peerSocket).missed = s.missed := by
  have hcount := slotsInUse_update hi (connect_pClients s i serverSocket peerSocket)
  rw [huse] at hcount
  have hnew : (newClient serverSocket peerSocket).inUse.toNat = 1 := rfl
  have hactive : (s.connect i serverSocket peerSocket).connectionsActive =
      s.connectionsActive+1 := rfl
  rw [Server.missed, Server.missed, hactive]
  simp only [Bool.toNat_false] at hcount
  omega

theorem Handled.missed {s s' : Server} {i : ℕ} (hi : i ∈ slots)
    (huse : (s.pClients i).inUse = true) (h : Handled s i s') : s'.missed = s.missed := by
  obtain ⟨t, hst, rfl | rfl⟩ := h
  · exact hst.missed
  · rw [missed_close_inUse hi ((hst.inUse i).trans huse), hst.missed]

theorem Handled.inactive {s s' : Server} {i : ℕ} (hinactive : s.connectionsActive = 0)
    (h : Handled s i s') : s'.connectionsActive = 0 := by
  obtain ⟨t, hst, rfl | rfl⟩ := h
  · rw [hst.connectionsActive, hinactive]
  · have ht : t.connectionsActive = 0 := hst.connectionsActive.trans hinactive
    rw [closeConnection_inactive ht, ht]

/-- `ReceiveLoop` closes connections in use only. -/
theorem receiveLoop_missed {recv : ℕ → ℤ} {s s' : Server} (h : receiveLoop s recv = some s') :
    s'.missed = s.missed := by
  unfold receiveLoop at h
  split at h
  · cases h
    rfl
  · refine foldlM_invariant (I := fun t => t.missed = s.missed) ?_ h rfl
    intro t i t' hi ht hround
    rcases receiveStep_cases hround with ⟨huse, hhandled⟩ | ⟨_, rfl⟩
    · exact (hhandled.missed hi huse).trans ht
    · exact ht

/-- A connection is evicted for its idle time, which a cleared slot does not have. -/
theorem newConnection_missed {s : Server} (hs : SlotsOk s) (serverSocket peerSocket : ℤ) :
    (newConnection s serverSocket peerSocket).2.missed = s.missed := by
  unfold newConnection
  split
  · rename_i s₁ hroom
    have hroomMissed : s₁.missed = s.missed := by
      rcases makeRoom_cases hroom with rfl | ⟨i, hi, hidle, rfl⟩
      · rfl
      · apply missed_close_inUse (mem_slots.mpr (mem_freeSlots.mp hi).2)
        by_contra hunused
        rw [hs.cleared (Bool.eq_false_iff.mpr hunused)] at hidle
        exact absurd hidle (by decide)
    rcases establishConnection_cases s₁ serverSocket peerSocket with heq | ⟨i, hi, huse, _, heq⟩
    · rw [heq, hroomMissed]
    · rw [heq, missed_connect (mem_slots.mpr (mem_freeSlots.mp hi).2) huse, hroomMissed]
  · rfl

/-- With nothing active no slot is closed. -/
theorem transmitPendingLoop_inactive {sends : ℕ → List SendRet} {s s' : Server}
    (hinactive : s.connectionsActive = 0) (h : transmitPendingLoop s sends = some s') :
    s'.missed = s.missed := by
  have hpass : s'.missed = s.missed ∧ s'.connectionsActive = 0 := by
    refine foldlM_invariant (I := fun t => t.missed = s.missed ∧ t.connectionsActive = 0) ?_ h
      ⟨rfl, hinactive⟩
    rintro t i t' hi ⟨hmissed, hzero⟩ hround
    rcases transmitStep_cases hround with ⟨huse, hhandled⟩ | ⟨_, rfl⟩
    · exact ⟨(hhandled.missed hi huse).trans hmissed, hhandled.inactive hzero⟩
    · rw [closeConnection_inactive hzero]
      exact ⟨hmissed, hzero⟩
  exact hpass.1

/-- No round of the pass makes up for a slot missed. -/
theorem transmitStep_missed_le {sends : ℕ → List SendRet} {s s' : Server} {i : ℕ} (hi : i ∈ slots)
    (h : transmitStep sends s i = some s') : s.missed ≤ s'.missed := by
  rcases transmitStep_cases h with ⟨huse, hhandled⟩ | ⟨huse, rfl⟩
  · exact le_of_eq (hhandled.missed hi huse).symm
  · by_cases hactive : s.connectionsActive = 0
    · rw [closeConnection_inactive hactive]
    · rw [missed_close_unused hi hactive huse]
      omega

/-- With a connection active the pass misses one: slot 0 is never in use, and its round comes
first. -/
theorem transmitPendingLoop_active {sends : ℕ → List SendRet} {s s' : Server} (hs : SlotsOk s)
    (hactive : s.connectionsActive ≠ 0) (h : transmitPendingLoop s sends = some s') :
    s.missed < s'.missed := by
  have hslots : slots = 0 :: slots.tail := rfl
  rw [transmitPendingLoop, hslots, List.foldlM_cons] at h
  -- the first round, and the rounds after it
  obtain ⟨t, hfirst, hrest⟩ := Option.bind_eq_some_iff.mp h
  have hunused : (s.pClients 0).inUse = false := hs.reserved (by decide)
  have hmissed : t.missed = s.missed+1 := by
    rcases transmitStep_cases hfirst with ⟨huse, _⟩ | ⟨_, rfl⟩
    · rw [hunused] at huse
      cases huse
    · exact missed_close_unused (mem_slots.mpr (by decide)) hactive hunused
  have hlater : s.missed+1 ≤ s'.missed := by
    refine foldlM_invariant (I := fun u => s.missed+1 ≤ u.missed) ?_ hrest (le_of_eq hmissed.symm)
    intro u i u' hi hu hround
    exact le_trans hu (transmitStep_missed_le (List.mem_of_mem_tail hi) hround)
  omega

/-- The step closes no slot that is not in use, or finds the counter at 0. -/
def ClosesInUse (s : Server) : Act → Prop
  | .transmitPendingLoop _ => s.connectionsActive = 0
  | .closeConnection i => s.connectionsActive = 0 ∨ (s.pClients i).inUse = true
  | _ => True

theorem close_missed_iff {s : Server} {i : ℕ} (hi : i ∈ slots) :
    (closeConnection s i).missed = s.missed ↔
      s.connectionsActive = 0 ∨ (s.pClients i).inUse = true := by
  by_cases hactive : s.connectionsActive = 0
  · rw [closeConnection_inactive hactive]
    exact iff_of_true rfl (Or.inl hactive)
  · cases huse : (s.pClients i).inUse with
    | true => exact iff_of_true (missed_close_inUse hi huse) (Or.inr rfl)
    | false =>
      rw [missed_close_unused hi hactive huse]
      apply iff_of_false
      · omega
      · rintro (hzero | htrue)
        · exact hactive hzero
        · cases htrue

/-- The steps that keep the counter exact. -/
theorem counter_step {s s' : Server} {a : Act} (hs : SlotsOk s) (hexact : CounterExact s)
    (h : nextServer s a = some s') : CounterExact s' ↔ ClosesInUse s a := by
  rw [counterExact_iff] at hexact ⊢
  cases a with
  | poll revents =>
    cases h
    exact iff_of_true ((poll_sameTables s revents).missed.trans hexact) trivial
  | newConnection serverSocket peerSocket =>
    cases h
    exact iff_of_true ((newConnection_missed hs serverSocket peerSocket).trans hexact) trivial
  | receiveLoop recv => exact iff_of_true ((receiveLoop_missed h).trans hexact) trivial
  | transmitPendingLoop sends =>
    by_cases hactive : s.connectionsActive = 0
    · exact iff_of_true ((transmitPendingLoop_inactive hactive h).trans hexact) hactive
    · have hlt := transmitPendingLoop_active hs hactive h
      exact iff_of_false (by omega) hactive
  | closeConnection i =>
    simp only [nextServer] at h
    split at h
    case isFalse => cases h
    case isTrue hi =>
      cases h
      rw [← hexact]
      exact close_missed_iff (mem_slots.mpr hi)
  | serverRun u =>
    cases h
    exact iff_of_true ((serverRun_sameTables s u).missed.trans hexact) trivial

/-- The counter is exact in every state of a run exactly when no step of it closes a slot that is
not in use while the counter is not 0. -/
theorem counter_exact_iff_closes_inUse {tcpListeningfd : ℤ} {opened : ℤ → Bool}
    {tr : List (Server × Act)} {s : Server}
    (h : Run nextServer (initializeServer tcpListeningfd opened) tr s) :
    Throughout CounterExact tr s ↔ ∀ p ∈ tr, ClosesInUse p.1 p.2 :=
  h.throughout_iff ClosesInUse (fun _ _ _ => slotsOk_step) (fun _ _ _ => counter_step)
    (initializeServer_slotsOk tcpListeningfd opened) rfl

/-- Two connections, the first of which is closed again. -/
def firstConnectionCloses : List Act :=
  [.newConnection 3 4, .newConnection 3 5, .closeConnection 2]

theorem counter_exact_iff_closes_inUse_two_connections :
    ∃ s, exec nextServer listening firstConnectionCloses = some s ∧
      s.connectionsActive = 1 ∧
      Throughout CounterExact (trace nextServer listening firstConnectionCloses) s := by
  have hexec : exec nextServer listening firstConnectionCloses = some _ := rfl
  refine ⟨_, hexec, rfl, (counter_exact_iff_closes_inUse (Run.of_exec hexec)).mpr ?_⟩
  refine List.forall_mem_cons.mpr ⟨trivial, List.forall_mem_cons.mpr ⟨trivial,
    List.forall_mem_singleton.mpr (.inr rfl)⟩⟩

/-- The first connection, and a pass that sends the one byte of its empty buffer. -/
def firstConnectionThenPass : List Act :=
  [.newConnection 3 4, .transmitPendingLoop (fun _ => [.count 1])]

/-- After the pass the counter is 0, with the connection still in use. -/
theorem counter_not_always_exact :
    ¬ ∀ s, Reachable nextServer listening s → CounterExact s := by
  intro hall
  have hexec : exec nextServer listening firstConnectionThenPass = some _ := rfl
  have hexact := hall _ (Reachable.of_exec hexec)
  revert hexact
  decide

end LinuxPrograms.PollServer
