import LinuxPrograms.LibScan
import LinuxPrograms.PollServerCounter
import Mathlib.Data.Nat.Basic

/-! `NewConnection`. With a successful `accept`: which connection is evicted, and where the accepted
socket goes; the search for a connection to evict is a scan for the first greatest idle time. With a
failed `accept`: the connection that was to make room is lost all the same. -/
namespace LinuxPrograms.PollServer
open Lib

/-- The state and the callback allow an eviction. -/
def MayBeEvicted (c : Connection) : Prop :=
  (c.state = .eIdle ∨ c.state = .eNewConnection) ∧ c.clientCallbackRunningNow = false

instance (c : Connection) : Decidable (MayBeEvicted c) := by
  unfold MayBeEvicted
  infer_instance

/-- A connection with a positive idle time that may be evicted. -/
structure Evictable (s : Server) (i : ℕ) : Prop where
  slot : i ∈ slots
  allowed : MayBeEvicted (s.pClients i)
  idle : 0 < (s.pClients i).idleTime

/-- The first of the connections with the greatest idle time. -/
structure Victim (s : Server) (v : ℕ) : Prop where
  evictable : Evictable s v
  longest : ∀ i, Evictable s i → (s.pClients i).idleTime ≤ (s.pClients v).idleTime
  first : ∀ i, Evictable s i → i < v → (s.pClients i).idleTime < (s.pClients v).idleTime

/-- No more connections than the reserved ones are left. -/
def Full (s : Server) : Prop := (maxConnections : ℤ) ≤ s.connectionsActive+reserveConn

instance (s : Server) : Decidable (Full s) :=
  inferInstanceAs (Decidable ((maxConnections : ℤ) ≤ s.connectionsActive+reserveConn))

/-- The tables `NewConnection` is called with. -/
structure Admitting (s : Server) : Prop where
  counter : CounterExact s
  reserved : ∀ i ∈ slots, (s.pClients i).inUse = true → reserveConn ≤ i
  unused : ∀ i ∈ slots, (s.pClients i).inUse = false → (s.pClients i).idleTime = 0
  idle : ∀ i ∈ slots, 0 ≤ (s.pClients i).idleTime

/-- Slot `v` was in use, and does not have its connection any more. -/
def Evicts (s t : Server) (v : ℕ) : Prop :=
  (s.pClients v).inUse = true ∧ t.pClients v ≠ s.pClients v

/-- The accepted socket has slot `i`; the other slots stand as they stood. -/
structure Admitted (s t : Server) (serverSocket peerSocket : ℤ) (i : ℕ) : Prop where
  slot : i ∈ freeSlots
  placed : t.pClients i = newClient serverSocket peerSocket
  others : ∀ k, k ≠ i → t.pClients k = s.pClients k
  counter : CounterExact t
  atMost : t.slotsInUse ≤ maxConnections-reserveConn

/-! The search for a connection to evict. -/

theorem staleIndex_eq (s : Server) :
    staleIndex s = (freeSlots.foldl (bestStep (fun i => (s.pClients i).idleTime)
      (fun i => MayBeEvicted (s.pClients i))) (none, 0)).1 := by
  rfl

theorem Evictable.inUse {s : Server} (hs : Admitting s) {i : ℕ} (h : Evictable s i) :
    (s.pClients i).inUse = true := by
  by_contra hunused
  have hzero := hs.unused i h.slot (by simpa using hunused)
  exact absurd h.idle (by rw [hzero]; exact lt_irrefl 0)

theorem Evictable.mem_freeSlots {s : Server} (hs : Admitting s) {i : ℕ} (h : Evictable s i) :
    i ∈ freeSlots :=
  PollServer.mem_freeSlots.mpr ⟨hs.reserved i h.slot (h.inUse hs), mem_slots.mp h.slot⟩

theorem evictable_of_freeSlots {s : Server} {i : ℕ} (hi : i ∈ freeSlots)
    (hallowed : MayBeEvicted (s.pClients i)) (hidle : 0 < (s.pClients i).idleTime) :
    Evictable s i :=
  ⟨mem_slots.mpr (PollServer.mem_freeSlots.mp hi).2, hallowed, hidle⟩

theorem staleIndex_none {s : Server} (hs : Admitting s) :
    staleIndex s = none ↔ ∀ i, ¬ Evictable s i := by
  rw [staleIndex_eq, foldl_bestStep_none]
  constructor
  · intro hall i hi
    exact absurd hi.idle (not_lt_of_ge (hall i (hi.mem_freeSlots hs) hi.allowed))
  · intro hnone i hi hallowed
    exact le_of_not_gt fun hidle => hnone i (evictable_of_freeSlots hi hallowed hidle)

theorem staleIndex_victim {s : Server} (hs : Admitting s) {v : ℕ} (h : staleIndex s = some v) :
    Victim s v := by
  rw [staleIndex_eq] at h
  have hsorted : freeSlots.Pairwise (· < ·) := List.pairwise_lt_range'
  obtain ⟨⟨hv, hallowed, hidle⟩, hlongest, hfirst⟩ := foldl_bestStep_some hsorted h
  refine ⟨evictable_of_freeSlots hv hallowed hidle, fun i hi => ?_, fun i hi hlt => ?_⟩
  · exact hlongest i (hi.mem_freeSlots hs) hi.allowed
  · exact hfirst i (hi.mem_freeSlots hs) hlt hi.allowed

/-! The slots in use. -/

theorem slotsInUse_eq {s : Server} (hs : Admitting s) :
    s.slotsInUse = freeSlots.countP (fun i => (s.pClients i).inUse) := by
  have hslots : slots = List.range reserveConn ++ freeSlots := by decide
  have hreserved : (List.range reserveConn).countP (fun i => (s.pClients i).inUse) = 0 := by
    apply List.countP_eq_zero.mpr
    intro i hi huse
    have hlt : i < reserveConn := List.mem_range.mp hi
    have hslot : i ∈ slots :=
      mem_slots.mpr (Nat.lt_trans hlt (by decide : reserveConn < maxConnections))
    have hle := hs.reserved i hslot huse
    omega
  rw [Server.slotsInUse, hslots, List.countP_append, hreserved, Nat.zero_add]

theorem freeSlots_length : freeSlots.length = maxConnections-reserveConn := List.length_range'

theorem slotsInUse_le {s : Server} (hs : Admitting s) :
    s.slotsInUse ≤ maxConnections-reserveConn := by
  rw [slotsInUse_eq hs, ← freeSlots_length]
  exact List.countP_le_length

/-- The server is full when every slot that is not reserved is in use. -/
theorem full_iff {s : Server} (hs : Admitting s) :
    Full s ↔ ∀ i ∈ freeSlots, (s.pClients i).inUse = true := by
  have hcount : Full s ↔ freeSlots.countP (fun i => (s.pClients i).inUse) = freeSlots.length := by
    have hle := slotsInUse_le hs
    have hcounter : s.connectionsActive = s.slotsInUse := hs.counter
    rw [Full, hcounter, ← slotsInUse_eq hs, freeSlots_length]
    simp only [maxConnections, reserveConn] at hle ⊢
    omega
  rw [hcount, List.countP_eq_length]

theorem connect_admitted {s t : Server} {i : ℕ} (hi : i ∈ freeSlots) (serverSocket peerSocket : ℤ)
    (huse : (t.pClients i).inUse = false) (hcounter : CounterExact t)
    (hroom : t.slotsInUse < maxConnections-reserveConn)
    (hothers : ∀ k, k ≠ i → t.pClients k = s.pClients k) :
    Admitted s (t.connect i serverSocket peerSocket) serverSocket peerSocket i := by
  have hslot : i ∈ slots := mem_slots.mpr (mem_freeSlots.mp hi).2
  have hclients := connect_pClients t i serverSocket peerSocket
  refine ⟨hi, ?_, fun k hk => ?_, ?_, ?_⟩
  · rw [hclients, Function.update_self]
  · rw [hclients, Function.update_of_ne hk, hothers k hk]
  · rw [counterExact_iff] at hcounter ⊢
    rw [missed_connect hslot huse, hcounter]
  · have hcount := slotsInUse_update hslot hclients
    have hnew : (newClient serverSocket peerSocket).inUse.toNat = 1 := rfl
    rw [huse, hnew] at hcount
    have hzero : false.toNat = 0 := rfl
    omega

/-! The two ways to a free slot. -/

/-- A full server has connections. -/
theorem Full.active_ne_zero {s : Server} (h : Full s) : s.connectionsActive ≠ 0 := by
  simp only [Full, maxConnections, reserveConn] at h
  omega

theorem makeRoom_full {s : Server} (h : Full s) :
    makeRoom s = (staleIndex s).map (closeConnection s) :=
  if_pos h

/-- With room for the socket it takes a slot that was free. -/
theorem newConnection_room {s : Server} (hs : Admitting s) (hroom : ¬ Full s)
    (serverSocket : ℤ) {peerSocket : ℤ} (hpeer : 0 ≤ peerSocket) :
    ∃ i, (s.pClients i).inUse = false ∧
      Admitted s (newConnection s serverSocket peerSocket).2 serverSocket peerSocket i ∧
      (newConnection s serverSocket peerSocket).1 = peerSocket := by
  have hmake : makeRoom s = some s := if_neg hroom
  cases hfind : freeSlots.find? (fun i => !(s.pClients i).inUse) with
  | none =>
    refine absurd ((full_iff hs).mpr fun i hi => ?_) hroom
    simpa using List.find?_eq_none.mp hfind i hi
  | some i =>
    have huse : (s.pClients i).inUse = false := by simpa using List.find?_some hfind
    have hnew : newConnection s serverSocket peerSocket =
        (peerSocket, s.connect i serverSocket peerSocket) := by
      simp only [newConnection, hmake, establishConnection, hfind, if_pos hpeer]
    have hlt : s.slotsInUse < maxConnections-reserveConn := by
      refine lt_of_le_of_ne (slotsInUse_le hs) fun heq => hroom ?_
      have hcounter : s.connectionsActive = s.slotsInUse := hs.counter
      rw [Full, hcounter, heq]
      decide
    rw [hnew]
    exact ⟨i, huse, connect_admitted (List.mem_of_find?_eq_some hfind) serverSocket peerSocket huse
      hs.counter hlt fun _ _ => rfl, rfl⟩

/-- The only free slot is the one that is found. -/
theorem find_only_free {t : Server} {v : ℕ} (hmem : v ∈ freeSlots)
    (hfree : (t.pClients v).inUse = false)
    (honly : ∀ k ∈ freeSlots, k ≠ v → (t.pClients k).inUse = true) :
    freeSlots.find? (fun i => !(t.pClients i).inUse) = some v := by
  cases hfound : freeSlots.find? (fun i => !(t.pClients i).inUse) with
  | none =>
    have hused := List.find?_eq_none.mp hfound v hmem
    rw [hfree] at hused
    exact absurd rfl hused
  | some k =>
    have hunused : (t.pClients k).inUse = false := by simpa using List.find?_some hfound
    by_contra hne
    have hk := honly k (List.mem_of_find?_eq_some hfound) fun heq => hne (heq ▸ rfl)
    rw [hunused] at hk
    cases hk

/-- Without room the socket takes the slot of the connection that is evicted. -/
theorem newConnection_evicts {s : Server} (hs : Admitting s) (hfull : Full s) {v : ℕ}
    (hv : staleIndex s = some v) (serverSocket : ℤ) {peerSocket : ℤ} (hpeer : 0 ≤ peerSocket) :
    Admitted s (newConnection s serverSocket peerSocket).2 serverSocket peerSocket v ∧
      (newConnection s serverSocket peerSocket).1 = peerSocket ∧
      ((s.pClients v).socket ≠ peerSocket →
        (newConnection s serverSocket peerSocket).2.opened (s.pClients v).socket = false) := by
  have hvictim := (staleIndex_victim hs hv).evictable
  have huse := hvictim.inUse hs
  have hmem := hvictim.mem_freeSlots hs
  have hcounter : s.connectionsActive = s.slotsInUse := hs.counter
  have hactive := hfull.active_ne_zero
  have hclients := closeConnection_pClients hactive v
  have hmake : makeRoom s = some (closeConnection s v) := by
    rw [makeRoom_full hfull, hv]
    rfl
  -- the slot of the victim is the only free one
  have hfree : ((closeConnection s v).pClients v).inUse = false := by
    rw [hclients, Function.update_self]
    rfl
  have honly : ∀ k ∈ freeSlots, k ≠ v → ((closeConnection s v).pClients k).inUse = true := by
    intro k hk hne
    rw [hclients, Function.update_of_ne hne]
    exact (full_iff hs).mp hfull k hk
  have hfind := find_only_free hmem hfree honly
  have hnew : newConnection s serverSocket peerSocket =
      (peerSocket, (closeConnection s v).connect v serverSocket peerSocket) := by
    simp only [newConnection, hmake, establishConnection, hfind, if_pos hpeer]
  have hexact : CounterExact (closeConnection s v) := by
    rw [counterExact_iff, missed_close_inUse hvictim.slot huse, ← counterExact_iff]
    exact hs.counter
  have hlt : (closeConnection s v).slotsInUse < maxConnections-reserveConn := by
    have hcount : (closeConnection s v).connectionsActive =
        (closeConnection s v).slotsInUse := hexact
    have hle := slotsInUse_le hs
    rw [closeConnection_connectionsActive hactive] at hcount
    omega
  rw [hnew]
  refine ⟨connect_admitted hmem serverSocket peerSocket hfree hexact hlt fun k hk => ?_, rfl,
    fun hne => ?_⟩
  · rw [hclients, Function.update_of_ne hk]
  · have hopened : (closeConnection s v).opened =
        Function.update s.opened (s.pClients v).socket false := by
      rw [closeConnection_active hactive]
    simp only [Server.connect]
    rw [Function.update_of_ne hne, hopened, Function.update_self]

/-- A connection that was idle is not the new one. -/
theorem Admitted.evicts_iff {s t : Server} {serverSocket peerSocket : ℤ} {i : ℕ}
    (h : Admitted s t serverSocket peerSocket i) {v : ℕ} (hv : Evicts s t v) : v = i := by
  by_contra hne
  exact hv.2 (h.others v hne)

/-- `NewConnection` with a successful `accept`: without an eligible connection a full server stays
as it is; otherwise a connection is evicted exactly when the server is full, the first of those
idle for the longest time, and the socket takes one slot that is not reserved. -/
theorem newConnection_admission {s : Server} (hs : Admitting s) (serverSocket : ℤ) {peerSocket : ℤ}
    (hpeer : 0 ≤ peerSocket) :
    (Full s ∧ (∀ i, ¬ Evictable s i) → newConnection s serverSocket peerSocket = (-1, s)) ∧
      (¬ Full s ∨ (∃ i, Evictable s i) →
        ((∃ v, Evicts s (newConnection s serverSocket peerSocket).2 v) ↔ Full s) ∧
        (∀ v, Evicts s (newConnection s serverSocket peerSocket).2 v → Victim s v ∧
          ((s.pClients v).socket ≠ peerSocket →
            (newConnection s serverSocket peerSocket).2.opened (s.pClients v).socket = false)) ∧
        (newConnection s serverSocket peerSocket).1 = peerSocket ∧
        ∃ i, Admitted s (newConnection s serverSocket peerSocket).2 serverSocket peerSocket i) := by
  constructor
  · rintro ⟨hfull, hnone⟩
    have hstale : staleIndex s = none := (staleIndex_none hs).mpr hnone
    have hmake : makeRoom s = none := by
      rw [makeRoom_full hfull, hstale]
      rfl
    simp only [newConnection, hmake]
  · intro hcan
    by_cases hfull : Full s
    · have hsome : staleIndex s ≠ none := by
        intro hstale
        rcases hcan with hroom | ⟨i, hi⟩
        · exact hroom hfull
        · exact (staleIndex_none hs).mp hstale i hi
      obtain ⟨v, hv⟩ := Option.ne_none_iff_exists'.mp hsome
      have hvictim := staleIndex_victim hs hv
      obtain ⟨hadmitted, hresult, hclosed⟩ := newConnection_evicts hs hfull hv serverSocket hpeer
      refine ⟨iff_of_true ⟨v, hvictim.evictable.inUse hs, fun hsame => ?_⟩ hfull, ?_, hresult,
        v, hadmitted⟩
      · -- the new connection has not been idle
        have hidle := hvictim.evictable.idle
        rw [← hsame, hadmitted.placed] at hidle
        exact absurd hidle (lt_irrefl 0)
      · intro k hk
        rw [hadmitted.evicts_iff hk]
        exact ⟨hvictim, hclosed⟩
    · obtain ⟨i, hunused, hadmitted, hresult⟩ := newConnection_room hs hfull serverSocket hpeer
      have hnone : ∀ v, ¬ Evicts s (newConnection s serverSocket peerSocket).2 v := by
        intro v hv
        rw [Evicts, hadmitted.evicts_iff hv, hunused] at hv
        exact Bool.false_ne_true hv.1
      exact ⟨iff_of_false (fun ⟨v, hv⟩ => hnone v hv) hfull, fun v hv => absurd hv (hnone v),
        hresult, i, hadmitted⟩

/-- Eight connections, the third of them idle for longer than the others. -/
def fullServer : Server where
  watchedfds := fun j => if 3 ≤ j ∧ j < 11 then ⟨j+1, POLLIN ||| POLLOUT, 0⟩ else ⟨-1, 0, 0⟩
  pClients := fun i =>
    if 2 ≤ i ∧ i < 10 then { newClient 3 (i+2) with idleTime := if i = 4 then 7 else 5 }
    else .cleared
  connectionsActive := 8
  opened := fun fd => decide (3 ≤ fd ∧ fd < 12)

theorem fullServer_admitting : Admitting fullServer where
  counter := by decide
  reserved := by decide
  unused := by decide
  idle := by decide

theorem newConnection_admission_full_server :
    (∃ v, Evicts fullServer (newConnection fullServer 3 20).2 v) ∧
      (newConnection fullServer 3 20).1 = 20 := by
  have hcan : ∃ i, Evictable fullServer i := ⟨4, by decide, by decide, by decide⟩
  have hadmission := (newConnection_admission fullServer_admitting 3
    (by decide : (0 : ℤ) ≤ 20)).2 (Or.inr hcan)
  exact ⟨hadmission.1.mpr (by decide), hadmission.2.2.1⟩

/-! A failed `accept`. -/

/-- The connections in use, the watch table and the counter are what they were. -/
structure Unharmed (s t : Server) : Prop where
  inUse : ∀ i ∈ slots, (s.pClients i).inUse = true ∨ (t.pClients i).inUse = true →
    t.pClients i = s.pClients i
  watched : ∀ j < maxWatchedfd, t.watchedfds j = s.watchedfds j
  active : t.connectionsActive = s.connectionsActive

theorem Unharmed.refl (s : Server) : Unharmed s s := ⟨fun _ _ _ => rfl, fun _ _ => rfl, rfl⟩

/-- The search finds a connection, whatever the table. -/
theorem staleIndex_ne_none {s : Server} :
    staleIndex s ≠ none ↔
      ∃ i ∈ freeSlots, MayBeEvicted (s.pClients i) ∧ 0 < (s.pClients i).idleTime := by
  rw [staleIndex_eq, Ne, foldl_bestStep_none]
  push Not
  rfl

/-- When `accept` fails, the second half of the function does nothing. -/
theorem establishConnection_failed (s : Server) (serverSocket : ℤ) {peerSocket : ℤ}
    (hpeer : peerSocket < 0) : (establishConnection s serverSocket peerSocket).2 = s := by
  unfold establishConnection
  split
  · rfl
  · rw [if_neg (not_le_of_gt hpeer)]

theorem newConnection_failed_room {s : Server} (hroom : ¬ Full s) (serverSocket : ℤ)
    {peerSocket : ℤ} (hpeer : peerSocket < 0) :
    (newConnection s serverSocket peerSocket).2 = s := by
  have hmake : makeRoom s = some s := if_neg hroom
  simp only [newConnection, hmake]
  exact establishConnection_failed s serverSocket hpeer

theorem newConnection_failed_full {s : Server} (hfull : Full s) (serverSocket : ℤ) {peerSocket : ℤ}
    (hpeer : peerSocket < 0) :
    (newConnection s serverSocket peerSocket).2 =
      (staleIndex s).elim s (closeConnection s) := by
  cases hstale : staleIndex s with
  | none =>
    have hmake : makeRoom s = none := by rw [makeRoom_full hfull, hstale]; rfl
    simp only [newConnection, hmake, Option.elim_none]
  | some v =>
    have hmake : makeRoom s = some (closeConnection s v) := by
      rw [makeRoom_full hfull, hstale]
      rfl
    simp only [newConnection, hmake, Option.elim_some]
    exact establishConnection_failed _ serverSocket hpeer

/-- A failed `accept` leaves the tables alone exactly when no connection had to make room. -/
theorem newConnection_unharmed_iff (s : Server) (serverSocket : ℤ) {peerSocket : ℤ}
    (hpeer : peerSocket < 0) :
    Unharmed s (newConnection s serverSocket peerSocket).2 ↔
      ¬ (Full s ∧
        ∃ i ∈ freeSlots, MayBeEvicted (s.pClients i) ∧ 0 < (s.pClients i).idleTime) := by
  rw [← staleIndex_ne_none]
  by_cases hfull : Full s
  · rw [newConnection_failed_full hfull serverSocket hpeer]
    cases hstale : staleIndex s with
    | none => exact iff_of_true (.refl s) fun h => h.2 rfl
    | some v =>
      refine iff_of_false (fun h => ?_) fun h => h ⟨hfull, Option.some_ne_none v⟩
      -- the counter goes down
      have hactive := hfull.active_ne_zero
      have hcounter : (closeConnection s v).connectionsActive = s.connectionsActive := h.active
      rw [closeConnection_connectionsActive hactive] at hcounter
      omega
  · rw [newConnection_failed_room hfull serverSocket hpeer]
    exact iff_of_true (.refl s) fun h => hfull h.1

/-- Eight connections that have not been idle yet. -/
def freshServer : Server :=
  { fullServer with
    pClients := fun i => if 2 ≤ i ∧ i < 10 then newClient 3 (i+2) else .cleared }

theorem newConnection_unharmed_iff_fresh :
    Full freshServer ∧ (freshServer.pClients 4).inUse = true ∧
      Unharmed freshServer (newConnection freshServer 3 (-1)).2 :=
  ⟨by decide, rfl,
    (newConnection_unharmed_iff freshServer 3 (by decide : (-1 : ℤ) < 0)).mpr (by decide)⟩

/-- A full server loses its third connection to an `accept` that fails. -/
theorem newConnection_harms_full_server :
    ¬ ∀ (s : Server) (serverSocket peerSocket : ℤ), peerSocket < 0 →
      Unharmed s (newConnection s serverSocket peerSocket).2 := by
  intro hall
  have hfree : ((newConnection fullServer 3 (-1)).2.pClients 4).inUse = false := by decide
  have hkept := (hall fullServer 3 (-1) (by decide)).inUse 4 (by decide) (.inl (by decide))
  rw [hkept] at hfree
  exact absurd hfree (by decide)

end LinuxPrograms.PollServer
