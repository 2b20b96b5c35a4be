import LinuxPrograms.PollServerSteps

/-! The connection table and the watch table of the poll server hold the same sockets. Closing a
slot that is not in use looks for the descriptor -1 and finds a free entry, so it changes neither
table. -/
namespace LinuxPrograms.PollServer
open Lib

/-- The socket of a connection in use. -/
def Connection.slotSocket (c : Connection) : Option ℤ := if c.inUse then some c.socket else none

/-- The descriptor an entry watches. -/
def Pollfd.watched (p : Pollfd) : Option ℤ := if p.fd = -1 then none else some p.fd

def Server.sockets (s : Server) : List ℤ := held Connection.slotSocket s.pClients slots

def Server.watchedSockets (s : Server) : List ℤ := held Pollfd.watched s.watchedfds watches

theorem slots_nodup : slots.Nodup := List.nodup_range

theorem watches_nodup : watches.Nodup := List.nodup_range'

/-- The search for an entry with a given descriptor. -/
theorem find_watch (w : ℕ → Pollfd) (y : ℤ) :
    (∃ j ∈ watches, (w j).fd = y ∧ watches.find? (fun j => decide ((w j).fd = y)) = some j) ∨
      (watches.find? (fun j => decide ((w j).fd = y)) = none ∧ ∀ j ∈ watches, (w j).fd ≠ y) := by
  cases hfind : watches.find? (fun j => decide ((w j).fd = y)) with
  | none =>
    refine Or.inr ⟨rfl, fun j hj heq => ?_⟩
    exact List.find?_eq_none.mp hfind j hj (decide_eq_true heq)
  | some j =>
    have hp := List.find?_some hfind
    exact Or.inl ⟨j, List.mem_of_find?_eq_some hfind, of_decide_eq_true hp, rfl⟩

/-- An entry written anew. -/
theorem setWatch_perm {s : Server} {j : ℕ} (hj : j ∈ watches) (p : Pollfd) :
    ∃ rest, s.watchedSockets.Perm ((s.watchedfds j).watched.toList ++ rest) ∧
      (s.setWatch j p).watchedSockets.Perm (p.watched.toList ++ rest) :=
  ⟨_, held_perm s.watchedfds hj, held_update_perm s.watchedfds watches_nodup hj p⟩

theorem Pollfd.watched_of_fd {p : Pollfd} {y : ℤ} (h : p.fd = y) (hy : y ≠ -1) :
    p.watched = some y := by
  unfold Pollfd.watched
  rw [h, if_neg hy]

theorem mem_watchedSockets {s : Server} {y : ℤ} :
    y ∈ s.watchedSockets ↔ y ≠ -1 ∧ ∃ j ∈ watches, (s.watchedfds j).fd = y := by
  rw [Server.watchedSockets, mem_held]
  constructor
  · rintro ⟨j, hj, hwatched⟩
    unfold Pollfd.watched at hwatched
    split at hwatched
    · cases hwatched
    · rename_i hne
      cases hwatched
      exact ⟨hne, j, hj, rfl⟩
  · rintro ⟨hy, j, hj, hfd⟩
    exact ⟨j, hj, Pollfd.watched_of_fd hfd hy⟩

/-- The entry that watched `y` becomes free. -/
theorem unwatch_perm {s : Server} {y : ℤ} (hy : y ∈ s.watchedSockets) :
    s.watchedSockets.Perm (y :: (s.unwatch y).watchedSockets) := by
  obtain ⟨hne, j₀, hj₀, hfd₀⟩ := mem_watchedSockets.mp hy
  rcases find_watch s.watchedfds y with ⟨j, hj, hfd, hfind⟩ | ⟨_, hnone⟩
  · obtain ⟨rest, hold, hnew⟩ := setWatch_perm (s := s) hj ⟨-1, 0, 0⟩
    rw [Pollfd.watched_of_fd hfd hne] at hold
    unfold Server.unwatch
    rw [hfind]
    exact hold.trans (hnew.symm.cons y)
  · exact (hnone j₀ hj₀ hfd₀).elim

/-- Looking for -1 finds an entry that is free already. -/
theorem unwatch_free (s : Server) : (s.unwatch (-1)).watchedSockets.Perm s.watchedSockets := by
  unfold Server.unwatch
  rcases find_watch s.watchedfds (-1) with ⟨j, hj, hfd, hfind⟩ | ⟨hfind, _⟩
  · obtain ⟨rest, hold, hnew⟩ := setWatch_perm (s := s) hj ⟨-1, 0, 0⟩
    have hfree : (s.watchedfds j).watched = none := if_pos hfd
    rw [hfree] at hold
    rw [hfind]
    exact hnew.trans hold.symm
  · rw [hfind]

theorem watch_perm {s : Server} {y : ℤ} (hfree : ∃ j ∈ watches, (s.watchedfds j).fd = -1)
    (hy : y ≠ -1) : (s.watch y).watchedSockets.Perm (y :: s.watchedSockets) := by
  obtain ⟨j₀, hj₀, hfd₀⟩ := hfree
  unfold Server.watch
  rcases find_watch s.watchedfds (-1) with ⟨j, hj, hfd, hfind⟩ | ⟨_, hnone⟩
  · obtain ⟨rest, hold, hnew⟩ := setWatch_perm (s := s) hj
      { s.watchedfds j with fd := y, events := POLLIN ||| POLLOUT }
    have hfree : (s.watchedfds j).watched = none := if_pos hfd
    rw [hfree] at hold
    rw [Pollfd.watched_of_fd rfl hy] at hnew
    rw [hfind]
    exact hnew.trans (hold.symm.cons y)
  · exact (hnone j₀ hj₀ hfd₀).elim

/-- A slot written anew. -/
theorem setClient_perm {s : Server} {i : ℕ} (hi : i ∈ slots) (c : Connection) :
    ∃ rest, s.sockets.Perm ((s.pClients i).slotSocket.toList ++ rest) ∧
      (s.setClient i c).sockets.Perm (c.slotSocket.toList ++ rest) :=
  ⟨_, held_perm s.pClients hi, held_update_perm s.pClients slots_nodup hi c⟩

/-- The two tables hold the same sockets, each once, and every one of them is open. -/
structure Tables (s : Server) : Prop where
  nodup : s.sockets.Nodup
  watched : s.watchedSockets.Perm s.sockets
  opened : ∀ y ∈ s.sockets, 0 < y ∧ s.opened y = true
  slots : SlotsOk s

theorem slotSocket_of_use {c : Connection} (h : c.inUse = true) : c.slotSocket = some c.socket :=
  if_pos h

theorem slotSocket_of_unused {c : Connection} (h : c.inUse = false) : c.slotSocket = none := by
  rw [Connection.slotSocket, h]
  rfl

theorem mem_sockets {s : Server} {y : ℤ} :
    y ∈ s.sockets ↔ ∃ i ∈ slots, (s.pClients i).inUse = true ∧ (s.pClients i).socket = y := by
  rw [Server.sockets, mem_held]
  constructor
  · rintro ⟨i, hi, hsocket⟩
    cases huse : (s.pClients i).inUse with
    | false =>
      rw [slotSocket_of_unused huse] at hsocket
      cases hsocket
    | true =>
      rw [slotSocket_of_use huse] at hsocket
      exact ⟨i, hi, huse, Option.some.inj hsocket⟩
  · rintro ⟨i, hi, huse, rfl⟩
    exact ⟨i, hi, slotSocket_of_use huse⟩

/-- Without a free entry all ten would be watching connections. -/
theorem free_entry {s : Server} (h : s.watchedSockets.length < maxConnections) :
    ∃ j ∈ watches, (s.watchedfds j).fd = -1 := by
  by_contra hnone
  have hall : ∀ j ∈ watches, (s.watchedfds j).watched.isSome = true := by
    intro j hj
    have hfd : (s.watchedfds j).fd ≠ -1 := fun heq => hnone ⟨j, hj, heq⟩
    rw [Pollfd.watched_of_fd rfl hfd]
    rfl
  have hlen : s.watchedSockets.length = watches.length := by
    rw [Server.watchedSockets, held_length]
    exact List.countP_eq_length.mpr hall
  rw [hlen] at h
  exact Nat.lt_irrefl _ h

/-- The first slots are never in use. -/
theorem sockets_length_lt {s : Server} (h : SlotsOk s) : s.sockets.length < maxConnections := by
  have hle : s.sockets.length ≤ slots.length := by
    rw [Server.sockets, held_length]
    exact List.countP_le_length
  refine Nat.lt_of_le_of_ne hle fun heq => ?_
  rw [Server.sockets, held_length] at heq
  have huse := List.countP_eq_length.mp heq 0 (mem_slots.mpr (by decide))
  rw [slotSocket_of_unused (h.reserved (by decide))] at huse
  cases huse

theorem Tables.free_entry {s : Server} (h : Tables s) :
    ∃ j ∈ watches, (s.watchedfds j).fd = -1 := by
  apply PollServer.free_entry
  rw [h.watched.length_eq]
  exact sockets_length_lt h.slots

theorem SameTables.sockets {s t : Server} (h : SameTables s t) : t.sockets = s.sockets := by
  apply held_congr
  intro i _
  rw [Connection.slotSocket, Connection.slotSocket, h.inUse, h.socket]

theorem SameTables.watchedSockets {s t : Server} (h : SameTables s t) :
    t.watchedSockets = s.watchedSockets := by
  apply held_congr
  intro j _
  rw [Pollfd.watched, Pollfd.watched, h.fd]

theorem Tables.same {s t : Server} (hst : SameTables s t) (h : Tables s) : Tables t where
  nodup := by rw [hst.sockets]; exact h.nodup
  watched := by rw [hst.sockets, hst.watchedSockets]; exact h.watched
  opened := by rw [hst.sockets, hst.opened]; exact h.opened
  slots := h.slots.same hst

/-- A connection in use takes its socket out of both tables. -/
theorem Tables.close_inUse {s : Server} {i : ℕ} (hi : i ∈ PollServer.slots)
    (hactive : s.connectionsActive ≠ 0) (huse : (s.pClients i).inUse = true) (h : Tables s) :
    Tables (closeConnection s i) := by
  obtain ⟨rest, hold, hnew⟩ := setClient_perm (s := s) hi .cleared
  rw [slotSocket_of_use huse] at hold
  have hcons : s.sockets.Perm ((s.pClients i).socket :: rest) := hold
  have hsockets : (closeConnection s i).sockets.Perm rest := by
    rw [Server.sockets, closeConnection_pClients hactive]
    exact hnew
  obtain ⟨hnotin, hrest⟩ := List.nodup_cons.mp (hcons.nodup_iff.mp h.nodup)
  -- so the search finds the entry that watches it
  have hmem : (s.pClients i).socket ∈ s.watchedSockets :=
    h.watched.mem_iff.mpr (mem_sockets.mpr ⟨i, hi, huse, rfl⟩)
  have hwatched : (closeConnection s i).watchedSockets.Perm rest := by
    rw [closeConnection_active hactive]
    apply List.Perm.cons_inv
    exact (unwatch_perm hmem).symm.trans (h.watched.trans hcons)
  refine ⟨hsockets.nodup_iff.mpr hrest, hwatched.trans hsockets.symm, ?_, h.slots.close i⟩
  intro y hy
  have hyrest : y ∈ rest := hsockets.mem_iff.mp hy
  -- the sockets of the other connections stay open
  have hne : y ≠ (s.pClients i).socket := fun heq => hnotin (heq ▸ hyrest)
  rw [closeConnection_active hactive]
  simp only [Function.update_of_ne hne]
  exact h.opened y (hcons.mem_iff.mpr (List.mem_cons_of_mem _ hyrest))

/-- Closing a slot not in use looks for -1: no watched entry goes, and no open descriptor. -/
theorem Tables.close_unused {s : Server} {i : ℕ} (hactive : s.connectionsActive ≠ 0)
    (huse : (s.pClients i).inUse = false) (h : Tables s) : Tables (closeConnection s i) := by
  have hcleared := h.slots.cleared huse
  have hclients : (closeConnection s i).pClients = s.pClients := by
    rw [closeConnection_pClients hactive, ← hcleared, Function.update_eq_self]
  have hsockets : (closeConnection s i).sockets = s.sockets := by
    rw [Server.sockets, hclients, Server.sockets]
  have hwatched : (closeConnection s i).watchedSockets.Perm s.watchedSockets := by
    rw [closeConnection_active hactive, hcleared]
    exact unwatch_free s
  refine ⟨by rw [hsockets]; exact h.nodup, ?_, ?_, h.slots.close i⟩
  · rw [hsockets]
    exact hwatched.trans h.watched
  · rw [hsockets]
    intro y hy
    obtain ⟨hpos, hopen⟩ := h.opened y hy
    have hne : y ≠ -1 := by omega
    rw [closeConnection_active hactive, hcleared]
    exact ⟨hpos, by rw [← hopen]; exact Function.update_of_ne hne _ _⟩

theorem Tables.close {s : Server} {i : ℕ} (hi : i ∈ PollServer.slots) (h : Tables s) :
    Tables (closeConnection s i) := by
  by_cases hactive : s.connectionsActive = 0
  · rwa [closeConnection_inactive hactive]
  · cases huse : (s.pClients i).inUse with
    | false => exact h.close_unused hactive huse
    | true => exact h.close_inUse hi hactive huse

/-- A descriptor `accept` may return. -/
def fresh (s : Server) (peerSocket : ℤ) : Prop := 0 < peerSocket ∧ s.opened peerSocket = false

theorem Tables.connect {s : Server} {i : ℕ} (hi : i ∈ freeSlots) {serverSocket peerSocket : ℤ}
    (huse : (s.pClients i).inUse = false) (hfresh : fresh s peerSocket) (h : Tables s) :
    Tables (s.connect i serverSocket peerSocket) := by
  obtain ⟨hpos, hclosed⟩ := hfresh
  have hslot : i ∈ PollServer.slots := mem_slots.mpr (mem_freeSlots.mp hi).2
  -- a descriptor in the tables is open, so `accept` does not return it
  have hnotin : peerSocket ∉ s.sockets := by
    intro hmem
    rw [(h.opened _ hmem).2] at hclosed
    cases hclosed
  obtain ⟨rest, hold, hnew⟩ := setClient_perm (s := s) hslot (newClient serverSocket peerSocket)
  rw [slotSocket_of_unused huse] at hold
  have hsockets : (s.connect i serverSocket peerSocket).sockets.Perm (peerSocket :: s.sockets) := by
    rw [Server.sockets, connect_pClients]
    exact hnew.trans (hold.symm.cons peerSocket)
  have hwatched : (s.connect i serverSocket peerSocket).watchedSockets.Perm
      (peerSocket :: s.watchedSockets) :=
    watch_perm (s := s.setClient i _) h.free_entry (by omega)
  refine ⟨?_, ?_, ?_, h.slots.connect hi serverSocket peerSocket⟩
  · exact hsockets.nodup_iff.mpr (List.nodup_cons.mpr ⟨hnotin, h.nodup⟩)
  · exact hwatched.trans ((h.watched.cons peerSocket).trans hsockets.symm)
  · intro y hy
    change 0 < y ∧ Function.update s.opened peerSocket true y = true
    rcases List.mem_cons.mp (hsockets.mem_iff.mp hy) with rfl | hmem
    · exact ⟨hpos, Function.update_self _ _ _⟩
    · have hne : y ≠ peerSocket := fun heq => hnotin (heq ▸ hmem)
      rw [Function.update_of_ne hne]
      exact h.opened y hmem

theorem initializeServer_tables (tcpListeningfd : ℤ) (opened : ℤ → Bool) :
    Tables (initializeServer tcpListeningfd opened) := by
  have hsockets : (initializeServer tcpListeningfd opened).sockets = [] :=
    List.filterMap_eq_nil_iff.mpr fun _ _ => rfl
  have hwatched : (initializeServer tcpListeningfd opened).watchedSockets = [] := by
    apply List.filterMap_eq_nil_iff.mpr
    intro j hj
    -- only entry 0 watches the listening socket
    have hj0 : j ≠ 0 := by
      have hge := (List.mem_range'_1.mp hj).1
      rw [maxService] at hge
      omega
    simp only [initializeServer, hj0, false_and, if_false]
    rfl
  refine ⟨by rw [hsockets]; exact List.nodup_nil, by rw [hsockets, hwatched], ?_,
    initializeServer_slotsOk tcpListeningfd opened⟩
  rw [hsockets]
  nofun

theorem tables_step {s s' : Server} {a : Act} (hs : Tables s) (ha : Accepts fresh s a)
    (h : nextServer s a = some s') : Tables s' := by
  refine nextServer_invariant fresh ?_ ?_ ?_ hs ha h
  · exact fun s t => Tables.same
  · exact fun s i => Tables.close
  · exact fun s i hi serverSocket peerSocket huse _ => Tables.connect hi huse

/-- The search for the socket of a connection in use succeeds. -/
theorem Tables.findIndex {s : Server} (h : Tables s) {i : ℕ} (hi : i ∈ PollServer.slots)
    (huse : (s.pClients i).inUse = true) :
    ∃ index ∈ watches, findIndex s (s.pClients i).socket = some (index : ℤ) ∧
      (s.watchedfds index).fd = (s.pClients i).socket := by
  have hmem : (s.pClients i).socket ∈ s.sockets := mem_sockets.mpr ⟨i, hi, huse, rfl⟩
  have hpos := (h.opened _ hmem).1
  obtain ⟨_, j₀, hj₀, hfd₀⟩ := mem_watchedSockets.mp (h.watched.mem_iff.mpr hmem)
  have hzero : (s.pClients i).socket ≠ 0 := by omega
  rcases find_watch s.watchedfds (s.pClients i).socket with ⟨j, hj, hfd, hfind⟩ | ⟨_, hnone⟩
  · refine ⟨j, hj, ?_, hfd⟩
    have hswap : (fun j => decide ((s.pClients i).socket = (s.watchedfds j).fd)) =
        fun j => decide ((s.watchedfds j).fd = (s.pClients i).socket) := by
      funext j
      simp only [eq_comm]
    have hge := (List.mem_range'_1.mp hj).1
    rw [maxService] at hge
    have hj0 : (j : ℤ) ≠ 0 := by omega
    simp only [PollServer.findIndex, hzero, if_false, hswap, hfind, hj0]
  · exact (hnone j₀ hj₀ hfd₀).elim

/-- The two tables agree: the sockets in use are distinct, and the watch table holds exactly these,
each once. `NewConnection` finds a free entry, and the search for a connection's socket finds the
entry that watches it. -/
structure Agree (s : Server) : Prop where
  nodup : s.sockets.Nodup
  watched : s.watchedSockets.Perm s.sockets
  room : ∀ s₁, makeRoom s = some s₁ → ∃ j ∈ watches, (s₁.watchedfds j).fd = -1
  found : ∀ i ∈ slots, (s.pClients i).inUse = true →
    ∃ index ∈ watches, findIndex s (s.pClients i).socket = some (index : ℤ) ∧
      (s.watchedfds index).fd = (s.pClients i).socket

theorem Tables.agree {s : Server} (h : Tables s) : Agree s where
  nodup := h.nodup
  watched := h.watched
  room := by
    intro s₁ hroom
    have hroomTables : Tables s₁ := makeRoom_invariant (fun s i => Tables.close) hroom h
    exact hroomTables.free_entry
  found := fun _ hi huse => h.findIndex hi huse

/-- The server, listening on descriptor 3. -/
def listening : Server := initializeServer 3 (fun fd => decide (fd = 3))

/-- The first connection, with descriptor 4. -/
def firstConnection : List Act := [.newConnection 3 4]

end LinuxPrograms.PollServer
