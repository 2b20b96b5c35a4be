import LinuxPrograms.PollServerModel

/-! What the steps of the poll server do to its tables. Every step is made of three changes: of
fields that are neither a socket nor a watched descriptor, of a slot that is closed, and of a slot
not in use that is given an accepted socket. -/
namespace LinuxPrograms.PollServer
open Lib

theorem mem_slots {i : ℕ} : i ∈ slots ↔ i < maxConnections := List.mem_range

theorem mem_freeSlots {i : ℕ} : i ∈ freeSlots ↔ reserveConn ≤ i ∧ i < maxConnections := by
  rw [freeSlots, List.mem_range'_1, reserveConn, maxConnections]

/-- The sockets stand where they stood; a connection in use may differ in its other fields. -/
structure SameTables (s s' : Server) : Prop where
  inUse : ∀ i, (s'.pClients i).inUse = (s.pClients i).inUse
  socket : ∀ i, (s'.pClients i).socket = (s.pClients i).socket
  unused : ∀ i, (s.pClients i).inUse = false → s'.pClients i = s.pClients i
  fd : ∀ j, (s'.watchedfds j).fd = (s.watchedfds j).fd
  opened : s'.opened = s.opened
  connectionsActive : s'.connectionsActive = s.connectionsActive

theorem SameTables.refl (s : Server) : SameTables s s :=
  ⟨fun _ => rfl, fun _ => rfl, fun _ _ => rfl, fun _ => rfl, rfl, rfl⟩

theorem setClient_sameTables {s : Server} {i : ℕ} {c : Connection}
    (huse : (s.pClients i).inUse = true) (hcuse : c.inUse = true)
    (hsocket : c.socket = (s.pClients i).socket) : SameTables s (s.setClient i c) := by
  have hne {k : ℕ} (hk : k ≠ i) : (s.setClient i c).pClients k = s.pClients k :=
    Function.update_of_ne hk _ _
  have hself : (s.setClient i c).pClients i = c := Function.update_self _ _ _
  refine ⟨fun k => ?_, fun k => ?_, fun k hk => ?_, fun _ => rfl, rfl, rfl⟩
  · by_cases hki : k = i
    · rw [hki, hself, hcuse, huse]
    · rw [hne hki]
  · by_cases hki : k = i
    · rw [hki, hself, hsocket]
    · rw [hne hki]
  · apply hne
    intro heq
    rw [heq, huse] at hk
    cases hk

/-! `CloseConnection` and the two searches of the watch table. -/

@[simp] theorem unwatch_pClients (s : Server) (y : ℤ) : (s.unwatch y).pClients = s.pClients := by
  unfold Server.unwatch
  split <;> rfl

@[simp] theorem watch_pClients (s : Server) (y : ℤ) : (s.watch y).pClients = s.pClients := by
  unfold Server.watch
  split <;> rfl

theorem closeConnection_inactive {s : Server} (h : s.connectionsActive = 0) (i : ℕ) :
    closeConnection s i = s :=
  if_pos h

theorem closeConnection_active {s : Server} (h : s.connectionsActive ≠ 0) (i : ℕ) :
    closeConnection s i =
      { (s.unwatch (s.pClients i).socket).setClient i .cleared with
        opened := Function.update s.opened (s.pClients i).socket false
        connectionsActive := s.connectionsActive-1 } :=
  if_neg h

theorem closeConnection_pClients {s : Server} (h : s.connectionsActive ≠ 0) (i : ℕ) :
    (closeConnection s i).pClients = Function.update s.pClients i .cleared := by
  rw [closeConnection_active h]
  simp only [Server.setClient, unwatch_pClients]

theorem connect_pClients (s : Server) (i : ℕ) (serverSocket peerSocket : ℤ) :
    (s.connect i serverSocket peerSocket).pClients =
      Function.update s.pClients i (newClient serverSocket peerSocket) :=
  watch_pClients _ _

/-! The rounds of the two loops. -/

/-- What a round does with a connection in use: other fields change, then it may be closed. -/
def Handled (s : Server) (i : ℕ) (s' : Server) : Prop :=
  ∃ t, SameTables s t ∧ (s' = t ∨ s' = closeConnection t i)

theorem receiveStep_cases {recv : ℕ → ℤ} {s s' : Server} {i : ℕ}
    (h : receiveStep recv s i = some s') :
    ((s.pClients i).inUse = true ∧ Handled s i s') ∨ ((s.pClients i).inUse = false ∧ s' = s) := by
  unfold receiveStep at h
  split at h
  case isTrue huse =>
    refine Or.inl ⟨huse, ?_⟩
    split at h
    · cases h
    · cases h
      exact ⟨s, .refl s, Or.inl rfl⟩
    · simp only at h
      split at h
      -- something was received, or the connection is closed
      · cases h
        refine ⟨_, ?_, Or.inl rfl⟩
        exact setClient_sameTables huse huse rfl
      · cases h
        exact ⟨s, .refl s, Or.inr rfl⟩
  case isFalse huse =>
    cases h
    exact Or.inr ⟨Bool.eq_false_iff.mpr huse, rfl⟩

theorem transmitPending_sameTables {s s' : Server} {i : ℕ} {sends : List SendRet} {status : Bool}
    (huse : (s.pClients i).inUse = true) (h : transmitPending s i sends = some (status, s')) :
    SameTables s s' := by
  unfold transmitPending at h
  simp only at h
  split at h
  · cases h
    exact .refl s
  · split at h
    · cases h
    · cases h
      exact setClient_sameTables huse huse rfl

/-- The round closes every slot that is not in use: its buffer is an array, so never null. -/
theorem transmitStep_cases {sends : ℕ → List SendRet} {s s' : Server} {i : ℕ}
    (h : transmitStep sends s i = some s') :
    ((s.pClients i).inUse = true ∧ Handled s i s') ∨
      ((s.pClients i).inUse = false ∧ s' = closeConnection s i) := by
  cases huse : (s.pClients i).inUse with
  | false =>
    simp only [transmitStep, huse, arrayIsNull] at h
    cases h
    exact Or.inr ⟨rfl, rfl⟩
  | true =>
    refine Or.inl ⟨rfl, ?_⟩
    simp only [transmitStep, huse, arrayIsNull, Bool.false_eq_true, not_false_eq_true, and_self,
      if_true, if_false] at h
    split at h
    · cases h
    · cases h
      exact ⟨s, .refl s, Or.inl rfl⟩
    -- `TransmitPending` does not return, returns an error, or has sent everything
    · split at h
      · cases h
      · rename_i hsend
        cases h
        exact ⟨_, transmitPending_sameTables huse hsend, Or.inr rfl⟩
      · rename_i hsend
        cases h
        exact ⟨_, transmitPending_sameTables huse hsend, Or.inl rfl⟩

/-! `NewConnection`. -/

/-- What the search has found so far. The longest idle time starts at 0 and only grows. -/
def StaleOk (s : Server) (best : Option ℕ × ℤ) : Prop :=
  0 ≤ best.2 ∧ ∀ i, best.1 = some i → i ∈ freeSlots ∧ 0 < (s.pClients i).idleTime

theorem staleStep_ok {s : Server} {best : Option ℕ × ℤ} (hbest : StaleOk s best) {k : ℕ}
    (hk : k ∈ freeSlots) : StaleOk s (staleStep s best k) := by
  unfold staleStep
  simp only
  split
  case isTrue hlonger =>
    have hidle : 0 < (s.pClients k).idleTime := lt_of_le_of_lt hbest.1 hlonger.1
    refine ⟨le_of_lt hidle, fun i hi => ?_⟩
    cases hi
    exact ⟨hk, hidle⟩
  case isFalse => exact hbest

/-- The connection evicted has been idle for a while. -/
theorem staleIndex_spec {s : Server} {i : ℕ} (h : staleIndex s = some i) :
    i ∈ freeSlots ∧ 0 < (s.pClients i).idleTime := by
  have hfold : StaleOk s (freeSlots.foldl (staleStep s) (none, 0)) := by
    apply List.foldlRecOn
    · exact ⟨le_refl 0, nofun⟩
    · intro best hbest k hk
      exact staleStep_ok hbest hk
  exact hfold.2 i h

theorem makeRoom_cases {s s₁ : Server} (h : makeRoom s = some s₁) :
    s₁ = s ∨ ∃ i ∈ freeSlots, 0 < (s.pClients i).idleTime ∧ s₁ = closeConnection s i := by
  unfold makeRoom at h
  split at h
  · obtain ⟨i, hi, hclose⟩ := Option.map_eq_some_iff.mp h
    obtain ⟨hmem, hidle⟩ := staleIndex_spec hi
    exact Or.inr ⟨i, hmem, hidle, hclose.symm⟩
  · cases h
    exact Or.inl rfl

theorem establishConnection_cases (s : Server) (serverSocket peerSocket : ℤ) :
    (establishConnection s serverSocket peerSocket).2 = s ∨
      ∃ i ∈ freeSlots, (s.pClients i).inUse = false ∧ 0 ≤ peerSocket ∧
        (establishConnection s serverSocket peerSocket).2 =
          s.connect i serverSocket peerSocket := by
  unfold establishConnection
  split
  · exact Or.inl rfl
  · rename_i i hfind
    have hp := List.find?_some hfind
    split
    case isTrue hpeer =>
      refine Or.inr ⟨i, List.mem_of_find?_eq_some hfind, ?_, hpeer, rfl⟩
      exact Bool.not_eq_true' _ |>.mp hp
    case isFalse => exact Or.inl rfl

/-- What is known of the descriptor where `NewConnection` calls `accept`. -/
def Accepts (fresh : Server → ℤ → Prop) (s : Server) : Act → Prop
  | .newConnection _ peerSocket =>
    ∀ s₁, makeRoom s = some s₁ → 0 ≤ peerSocket → fresh s₁ peerSocket
  | _ => True

theorem SlotUpdate.apply_of_unused {c : Connection} (u : SlotUpdate) (h : c.inUse = false) :
    u.apply c = c := by
  rw [SlotUpdate.apply, h]
  rfl

theorem SlotUpdate.apply_fields (u : SlotUpdate) (c : Connection) :
    (u.apply c).inUse = c.inUse ∧ (u.apply c).socket = c.socket := by
  cases huse : c.inUse with
  | false => rw [u.apply_of_unused huse]; exact ⟨huse, rfl⟩
  | true =>
    rw [SlotUpdate.apply, if_pos huse]
    exact ⟨huse, rfl⟩

theorem poll_sameTables (s : Server) (revents : ℕ → BitVec 32) :
    SameTables s
      { s with watchedfds := fun j => { s.watchedfds j with revents := revents j } } :=
  ⟨fun _ => rfl, fun _ => rfl, fun _ _ => rfl, fun _ => rfl, rfl, rfl⟩

theorem serverRun_sameTables (s : Server) (u : ℕ → SlotUpdate) :
    SameTables s { s with pClients := fun i => (u i).apply (s.pClients i) } :=
  ⟨fun i => ((u i).apply_fields _).1, fun i => ((u i).apply_fields _).2,
    fun i => (u i).apply_of_unused, fun _ => rfl, rfl, rfl⟩

section Rule
variable (fresh : Server → ℤ → Prop) {I : Server → Prop}
  (hsame : ∀ s t, SameTables s t → I s → I t)
  (hclose : ∀ s, ∀ i ∈ slots, I s → I (closeConnection s i))
  (hconnect : ∀ s, ∀ i ∈ freeSlots, ∀ serverSocket peerSocket, (s.pClients i).inUse = false →
    0 ≤ peerSocket → fresh s peerSocket → I s → I (s.connect i serverSocket peerSocket))
include hclose

theorem makeRoom_invariant {s s₁ : Server} (h : makeRoom s = some s₁) (hI : I s) : I s₁ := by
  rcases makeRoom_cases h with rfl | ⟨i, hi, _, rfl⟩
  · exact hI
  · exact hclose s i (mem_slots.mpr (mem_freeSlots.mp hi).2) hI

include hsame

theorem Handled.invariant {s s' : Server} {i : ℕ} (hi : i ∈ slots) (h : Handled s i s')
    (hI : I s) : I s' := by
  obtain ⟨t, hst, rfl | rfl⟩ := h
  · exact hsame s _ hst hI
  · exact hclose t i hi (hsame s t hst hI)

include hconnect

/-- What the three changes keep, every step keeps. -/
theorem nextServer_invariant {s s' : Server} {a : Act} (hI : I s) (ha : Accepts fresh s a)
    (h : nextServer s a = some s') : I s' := by
  cases a with
  | poll revents =>
    cases h
    exact hsame s _ (poll_sameTables s revents) hI
  | newConnection serverSocket peerSocket =>
    cases h
    unfold newConnection
    split
    · rename_i s₁ hroom
      have hI₁ : I s₁ := makeRoom_invariant hclose hroom hI
      rcases establishConnection_cases s₁ serverSocket peerSocket with
        heq | ⟨i, hi, huse, hpeer, heq⟩
      · rw [heq]
        exact hI₁
      · rw [heq]
        exact hconnect s₁ i hi _ _ huse hpeer (ha s₁ hroom hpeer) hI₁
    · exact hI
  | receiveLoop recv =>
    simp only [nextServer, receiveLoop] at h
    split at h
    · cases h
      exact hI
    -- the induction is on the rounds of the pass
    · refine foldlM_invariant (fun s i s' hi hI hround => ?_) h hI
      rcases receiveStep_cases hround with ⟨_, hhandled⟩ | ⟨_, rfl⟩
      · exact hhandled.invariant hsame hclose hi hI
      · exact hI
  | transmitPendingLoop sends =>
    refine foldlM_invariant (fun s i s' hi hI hround => ?_) h hI
    rcases transmitStep_cases hround with ⟨_, hhandled⟩ | ⟨_, rfl⟩
    · exact hhandled.invariant hsame hclose hi hI
    · exact hclose s i hi hI
  | closeConnection i =>
    simp only [nextServer] at h
    split at h
    · rename_i hi
      cases h
      exact hclose s i (mem_slots.mpr hi) hI
    · cases h
  | serverRun u =>
    cases h
    exact hsame s _ (serverRun_sameTables s u) hI

end Rule

/-- A slot is cleared or in use, and the first slots are never in use. -/
def SlotsOk (s : Server) : Prop :=
  ∀ i, s.pClients i = .cleared ∨ (reserveConn ≤ i ∧ (s.pClients i).inUse = true)

theorem SlotsOk.cleared {s : Server} (h : SlotsOk s) {i : ℕ} (hi : (s.pClients i).inUse = false) :
    s.pClients i = .cleared := by
  rcases h i with hcleared | ⟨_, huse⟩
  · exact hcleared
  · rw [hi] at huse
    cases huse

theorem SlotsOk.reserved {s : Server} (h : SlotsOk s) {i : ℕ} (hi : i < reserveConn) :
    (s.pClients i).inUse = false := by
  rcases h i with hcleared | ⟨hge, _⟩
  · rw [hcleared]
    rfl
  · omega

theorem initializeServer_slotsOk (tcpListeningfd : ℤ) (opened : ℤ → Bool) :
    SlotsOk (initializeServer tcpListeningfd opened) :=
  fun _ => Or.inl rfl

/-- One slot written anew. -/
theorem SlotsOk.update {s s' : Server} (h : SlotsOk s) {i : ℕ} {c : Connection}
    (heq : s'.pClients = Function.update s.pClients i c)
    (hc : c = .cleared ∨ (reserveConn ≤ i ∧ c.inUse = true)) : SlotsOk s' := by
  intro k
  rw [heq]
  by_cases hki : k = i
  · subst hki
    rw [Function.update_self]
    exact hc
  · rw [Function.update_of_ne hki]
    exact h k

theorem SlotsOk.same {s t : Server} (hst : SameTables s t) (h : SlotsOk s) : SlotsOk t := by
  intro i
  rcases h i with hcleared | ⟨hi, huse⟩
  · left
    rw [hst.unused i (by rw [hcleared]; rfl), hcleared]
  · exact Or.inr ⟨hi, (hst.inUse i).trans huse⟩

theorem SlotsOk.close {s : Server} (i : ℕ) (h : SlotsOk s) : SlotsOk (closeConnection s i) := by
  by_cases hactive : s.connectionsActive = 0
  · rwa [closeConnection_inactive hactive]
  · exact h.update (closeConnection_pClients hactive i) (Or.inl rfl)

theorem SlotsOk.connect {s : Server} {i : ℕ} (hi : i ∈ freeSlots) (serverSocket peerSocket : ℤ)
    (h : SlotsOk s) : SlotsOk (s.connect i serverSocket peerSocket) :=
  h.update (connect_pClients s i serverSocket peerSocket) (Or.inr ⟨(mem_freeSlots.mp hi).1, rfl⟩)

theorem slotsOk_step {s s' : Server} {a : Act} (hs : SlotsOk s) (h : nextServer s a = some s') :
    SlotsOk s' := by
  refine nextServer_invariant (fun _ _ => True) ?_ ?_ ?_ hs ?_ h
  · exact fun s t => SlotsOk.same
  · exact fun s i _ => SlotsOk.close i
  · exact fun s i hi serverSocket peerSocket _ _ _ => SlotsOk.connect hi serverSocket peerSocket
  · cases a <;> first | trivial | exact fun _ _ _ => trivial

end LinuxPrograms.PollServer
