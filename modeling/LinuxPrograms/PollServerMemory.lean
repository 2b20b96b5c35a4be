import LinuxPrograms.PollServerTables

/-! The block of the watch table is shorter than the table: it ends inside entry 10, and the memory
behind it belongs to others (to `malloc`, and to whom it gives the next block, which is `pClients`).
The two tables agree for as long as nobody else changes which descriptors stand there. -/
namespace LinuxPrograms.PollServer
open Lib

/-- The lowest `n` bytes are those of `a`, the others those of `b`. -/
def lowBytes (n : ℕ) (a b : BitVec 32) : BitVec 32 :=
  let mask := BitVec.ofNat 32 (2^(8*n)-1)
  (a &&& mask) ||| (b &&& ~~~mask)

/-- What entry `j` reads as after others have written `q` over it wherever it does not lie in the
block. The lowest byte of `fd` comes first, then the `short`s `events` and `revents`. -/
def Pollfd.overwrite (j : ℕ) (p q : Pollfd) : Pollfd :=
  if sizeofPollfd*(j+1) ≤ watchedfdsBytes then p
  else
    let own := watchedfdsBytes-sizeofPollfd*j  -- the bytes of the entry that lie in the block
    ⟨(lowBytes own (BitVec.ofInt 32 p.fd) (BitVec.ofInt 32 q.fd)).toInt,
      lowBytes (own-4) p.events q.events, lowBytes (own-6) p.revents q.revents⟩

def Server.overwrite (s : Server) (w : ℕ → Pollfd) : Server :=
  { s with watchedfds := fun j => (s.watchedfds j).overwrite j (w j) }

/-- A step of the main loop, or what others write to the memory behind the block. -/
inductive MemoryAct
  | server (a : Act)
  | elsewhere (w : ℕ → Pollfd)

/-- What the server's own entries 11 and 12 do to the owners of that memory is not part of this: a
program that dies of it takes no further step. -/
def nextMemory (s : Server) : MemoryAct → Option Server
  | .server a => nextServer s a
  | .elsewhere w => some (s.overwrite w)

/-- The entries that do not lie in the block as a whole: 10, 11 and 12. -/
def outside (j : ℕ) : Bool := watchedfdsBytes < sizeofPollfd*(j+1)

/-- Others leave the descriptors in the memory behind the block as they are, up to their order. -/
def Keeps (s : Server) : MemoryAct → Prop
  | .server _ => True
  | .elsewhere w => (held Pollfd.watched (s.overwrite w).watchedfds (watches.filter outside)).Perm
      (held Pollfd.watched s.watchedfds (watches.filter outside))

/-- The descriptors `accept` returns are fresh. -/
def AcceptsFresh (s : Server) : MemoryAct → Prop
  | .server a => Accepts fresh s a
  | .elsewhere _ => True

theorem overwrite_of_inside (s : Server) (w : ℕ → Pollfd) {j : ℕ} (h : outside j = false) :
    (s.overwrite w).watchedfds j = s.watchedfds j := by
  have hle : sizeofPollfd*(j+1) ≤ watchedfdsBytes := Nat.le_of_not_lt (of_decide_eq_false h)
  exact if_pos hle

/-- The watch table keeps its descriptors exactly when the memory behind the block does. -/
theorem overwrite_watchedSockets (s : Server) (w : ℕ → Pollfd) :
    (s.overwrite w).watchedSockets.Perm s.watchedSockets ↔ Keeps s (.elsewhere w) := by
  have hnew := held_filter_perm Pollfd.watched (s.overwrite w).watchedfds outside watches
  have hold := held_filter_perm Pollfd.watched s.watchedfds outside watches
  have hinside : held Pollfd.watched (s.overwrite w).watchedfds
        (watches.filter fun j => !outside j) =
      held Pollfd.watched s.watchedfds (watches.filter fun j => !outside j) := by
    refine held_congr fun j hj => ?_
    have hin : outside j = false := by
      rw [← Bool.not_eq_true']
      exact (List.mem_filter.mp hj).2
    rw [overwrite_of_inside s w hin]
  rw [hinside] at hnew
  constructor
  · intro h
    exact (List.perm_append_right_iff _).mp (hnew.symm.trans (h.trans hold))
  · intro h
    exact hnew.trans (((List.perm_append_right_iff _).mpr h).trans hold.symm)

/-- A write that keeps the descriptors keeps what the tables say of each other. -/
theorem Tables.overwrite {s : Server} (h : Tables s) {w : ℕ → Pollfd}
    (hkeeps : Keeps s (.elsewhere w)) : Tables (s.overwrite w) where
  nodup := h.nodup
  watched := ((overwrite_watchedSockets s w).mpr hkeeps).trans h.watched
  opened := h.opened
  slots := h.slots

theorem Tables.nextMemory {s s' : Server} {a : MemoryAct} (hs : Tables s) (ha : AcceptsFresh s a)
    (h : nextMemory s a = some s') (hkeeps : Keeps s a) : Tables s' := by
  cases a with
  | server a => exact tables_step hs ha h
  | elsewhere w =>
    cases h
    exact hs.overwrite hkeeps

/-- After a write that changes the descriptors the tables disagree. -/
theorem keeps_of_agree {s s' : Server} {a : MemoryAct} (hs : Tables s)
    (h : nextMemory s a = some s') (hagree : Agree s') : Keeps s a := by
  cases a with
  | server a => trivial
  | elsewhere w =>
    cases h
    exact (overwrite_watchedSockets s w).mp (hagree.watched.trans hs.watched.symm)

/-- In every run in which `accept` returns fresh descriptors, the two tables agree in every state
exactly when nothing that others write behind the block changes the descriptors there. -/
theorem tables_agree_iff {tcpListeningfd : ℤ} {opened : ℤ → Bool}
    {tr : List (Server × MemoryAct)} {s : Server}
    (h : Run nextMemory (initializeServer tcpListeningfd opened) tr s)
    (ha : ∀ p ∈ tr, AcceptsFresh p.1 p.2) :
    Throughout Agree tr s ↔ ∀ p ∈ tr, Keeps p.1 p.2 :=
  h.throughout_iff_of_stronger (D := AcceptsFresh) Keeps (fun _ => Tables.agree)
    (fun _ _ _ hs _ hstep hagree => keeps_of_agree hs hstep hagree)
    (fun _ _ _ hs ha hstep hkeeps => hs.nextMemory ha hstep hkeeps) ha
    (initializeServer_tables tcpListeningfd opened)

/-- Others use the memory between two steps, and no descriptor stands there before or after. -/
def sharedMemory : List MemoryAct :=
  [.server (.newConnection 3 4), .elsewhere fun _ => ⟨-1, POLLIN, POLLOUT⟩,
    .server (.newConnection 3 5), .server (.closeConnection 2)]

theorem tables_agree_iff_shared :
    ∃ s, exec nextMemory listening sharedMemory = some s ∧ s.sockets = [5] ∧
      Throughout Agree (trace nextMemory listening sharedMemory) s := by
  have hexec : exec nextMemory listening sharedMemory = some _ := rfl
  refine ⟨_, hexec, by decide, (tables_agree_iff (Run.of_exec hexec) ?_).mpr ?_⟩
  · refine List.forall_mem_cons.mpr ⟨?_, List.forall_mem_cons.mpr ⟨trivial,
      List.forall_mem_cons.mpr ⟨?_, List.forall_mem_cons.mpr ⟨trivial, nofun⟩⟩⟩⟩
    all_goals
      intro s₁ hroom _
      cases hroom
      exact ⟨by decide, rfl⟩
  · refine List.forall_mem_cons.mpr ⟨trivial, List.forall_mem_cons.mpr ⟨?_,
      List.forall_mem_cons.mpr ⟨trivial, List.forall_mem_cons.mpr ⟨trivial, nofun⟩⟩⟩⟩
    exact List.Perm.nil

/-- `pClients` begins at byte 96, over entry 12, and `Initialize` clears it. -/
def clearedClients (j : ℕ) : Pollfd := if j = 12 then ⟨0, 0, 0⟩ else ⟨-1, 0, 0⟩

theorem not_always_agree :
    ¬ ∀ (tcpListeningfd : ℤ) (opened : ℤ → Bool) (tr : List (Server × MemoryAct)) (s : Server),
      Run nextMemory (initializeServer tcpListeningfd opened) tr s →
      (∀ p ∈ tr, AcceptsFresh p.1 p.2) → Throughout Agree tr s := by
  intro hall
  have hrun : Run nextMemory listening [(listening, .elsewhere clearedClients)]
      (listening.overwrite clearedClients) := Run.single rfl
  have hfresh : ∀ p ∈ [(listening, MemoryAct.elsewhere clearedClients)], AcceptsFresh p.1 p.2 :=
    List.forall_mem_singleton.mpr trivial
  have hagree := (hall _ _ _ _ hrun hfresh).2
  -- no slot is in use, and entry 12 watches descriptor 0
  have hwatched : (listening.overwrite clearedClients).watchedSockets = [0] := by decide
  have hsockets : (listening.overwrite clearedClients).sockets = [] := by decide
  have hperm := hagree.watched.length_eq
  rw [hwatched, hsockets] at hperm
  cases hperm

end LinuxPrograms.PollServer
