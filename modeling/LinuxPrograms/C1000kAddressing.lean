import LinuxPrograms.C1000kEffects
import LinuxPrograms.LibLowest

/-! The descriptors main.cc opens and how `dispatch_conn` uses them. A batch number becomes the
number of a channel, and the descriptor of that channel is an index of `sendfdBuff`, so whether it
is in range depends on the processors of the machine and on what was open before. -/
namespace LinuxPrograms.C1000k
open Lib

/-- The descriptors main has opened so far, and those in use. -/
structure Sockets where
  used : Finset ℕ
  mainEpollfd : ℕ
  listenfd : ℕ
  sockfdpair : ℕ → ℕ × ℕ

/-- `socketpair(.., sockfdpair[i])`. -/
def Sockets.openPair (s : Sockets) (i : ℕ) : Sockets :=
  let fd := lowestFree s.used
  let fd' := lowestFree (insert fd s.used)
  { s with
    used := insert fd' (insert fd s.used)
    sockfdpair := Function.update s.sockfdpair i (fd, fd') }

/-- What main opens when `used` is open: the epoll set, the listening socket, and a pair for each
worker. -/
def openSockets (used : Finset ℕ) (cpuNum : ℕ) : Sockets :=
  let epollfd := lowestFree used
  let listenfd := lowestFree (insert epollfd used)
  (List.range' 1 (cpuNum-1)).foldl Sockets.openPair
    ⟨insert listenfd (insert epollfd used), epollfd, listenfd, fun _ => (0, 0)⟩

/-- The sockets are numbered in the order they are opened in. -/
structure InOrder (used : Finset ℕ) (n : ℕ) (s : Sockets) : Prop where
  used_eq : s.used = usedAfter used (2*n+2)
  listenfd : s.listenfd = freeNumber used 1
  pair : ∀ i, 1 ≤ i → i ≤ n →
    s.sockfdpair i = (freeNumber used (2*i), freeNumber used (2*i+1))

theorem InOrder.openPair {used : Finset ℕ} {n : ℕ} {s : Sockets} (h : InOrder used n s) :
    InOrder used (n+1) (s.openPair (n+1)) := by
  have hfirst : lowestFree s.used = freeNumber used (2*n+2) := by
    rw [h.used_eq, lowestFree_usedAfter]
  have hinsert : insert (lowestFree s.used) s.used = usedAfter used (2*n+3) := by
    rw [hfirst, h.used_eq, ← usedAfter_succ]
  have hsecond : lowestFree (insert (lowestFree s.used) s.used) = freeNumber used (2*n+3) := by
    rw [hinsert, lowestFree_usedAfter]
  refine ⟨?_, h.listenfd, fun i hi hin => ?_⟩
  · simp only [Sockets.openPair]
    rw [hsecond, hinsert, ← usedAfter_succ]
    rfl
  · simp only [Sockets.openPair]
    rcases Nat.eq_or_lt_of_le hin with rfl | hlt
    · rw [Function.update_self, hsecond, hfirst]
      rfl
    · rw [Function.update_of_ne (Nat.ne_of_lt hlt)]
      exact h.pair i hi (Nat.le_of_lt_succ hlt)

theorem openSockets_inOrder (used : Finset ℕ) (cpuNum : ℕ) :
    InOrder used (cpuNum-1) (openSockets used cpuNum) := by
  have hepoll : lowestFree used = freeNumber used 0 := by
    rw [← lowestFree_usedAfter, usedAfter_zero]
  have hinsert : insert (lowestFree used) used = usedAfter used 1 := by
    rw [usedAfter_succ, usedAfter_zero, hepoll]
  have hlisten : lowestFree (insert (lowestFree used) used) = freeNumber used 1 := by
    rw [hinsert, lowestFree_usedAfter]
  unfold openSockets
  generalize cpuNum-1 = n
  induction n with
  | zero =>
    refine ⟨?_, hlisten, fun i hi hin => by omega⟩
    show insert (lowestFree _) (insert (lowestFree used) used) = usedAfter used 2
    rw [hlisten, hinsert, ← usedAfter_succ]
  | succ n ih =>
    rw [List.range'_1_concat, List.foldl_append, Nat.add_comm 1 n]
    exact ih.openPair

/-- The configuration main ends up with. -/
def Config.ofMain (used : Finset ℕ) (cpuNum : ℕ) : Config where
  cpuNum := cpuNum
  listenfd := (openSockets used cpuNum).listenfd
  peer := fun i => ((openSockets used cpuNum).sockfdpair i).1
  peer_inj := by
    intro i j hi hin hj hjn heq
    have h := openSockets_inOrder used cpuNum
    rw [h.pair i hi (by omega), h.pair j hj (by omega)] at heq
    have hsame := freeNumber_injective used heq
    omega
  peer_ne_listenfd := by
    intro i hi hin heq
    have h := openSockets_inOrder used cpuNum
    rw [h.pair i hi (by omega), h.listenfd] at heq
    have hsame := freeNumber_injective used heq
    omega

/-- `dispatch_conn` does not divide by zero for batch `sum`, takes a pair main has made and stored,
and stays inside `sendfdBuff`. -/
def Config.Addressed (cfg : Config) (sum : ℕ) : Prop :=
  cfg.cpuNum-1 ≠ 0 ∧ cfg.channel sum ∈ cfg.channels ∧ cfg.channel sum < maxCpu ∧
    cfg.peer (cfg.channel sum) < maxCpu

/-- A batch that `dispatch_conn` appends to a buffer is addressed. -/
theorem appendStep_addressed {cfg : Config} {s s' : Server} {node : AcceptedFD}
    {rest : List AcceptedFD} (h : appendStep cfg s node rest = some s') : cfg.Addressed s.sum := by
  unfold appendStep at h
  dsimp only at h
  split at h
  · next hdefined =>
    obtain ⟨⟨hworkers, hchannel, hpeer⟩, -⟩ := hdefined
    have hne : cfg.cpuNum-1 ≠ 0 := by omega
    exact ⟨hne, channel_mem cfg s.sum hworkers, hchannel, hpeer⟩
  · cases h

/-- The addressing of one batch is defined when there is a worker, and enough low numbers were free
for the pair of its channel. -/
theorem addressed_iff (used : Finset ℕ) (cpuNum sum : ℕ) :
    (Config.ofMain used cpuNum).Addressed sum ↔
      2 ≤ cpuNum ∧ 2*(sum % (cpuNum-1)+1)+usedBelow used maxCpu < maxCpu := by
  by_cases hworkers : cpuNum-1 = 0
  · refine iff_of_false (fun haddressed => haddressed.1 hworkers) fun hboth => ?_
    omega
  · have hmany : 1 < cpuNum := by omega
    have hmem := channel_mem (Config.ofMain used cpuNum) sum hmany
    obtain ⟨hpos, hle⟩ := ((Config.ofMain used cpuNum).mem_channels _).mp hmem
    have hchannel : (Config.ofMain used cpuNum).channel sum = sum % (cpuNum-1)+1 := rfl
    rw [hchannel] at hpos hle
    have hpeer : (Config.ofMain used cpuNum).peer ((Config.ofMain used cpuNum).channel sum) =
        freeNumber used (2*(sum % (cpuNum-1)+1)) := by
      show ((openSockets used cpuNum).sockfdpair (sum % (cpuNum-1)+1)).1 = _
      rw [(openSockets_inOrder used cpuNum).pair _ hpos (Nat.le_sub_one_of_lt hle)]
    rw [Config.Addressed, hpeer, freeNumber_lt_iff, hchannel]
    constructor
    · rintro ⟨-, -, -, hlow⟩
      exact ⟨by omega, hlow⟩
    · rintro ⟨-, hlow⟩
      exact ⟨hworkers, hmem, by omega, hlow⟩

/-- The addressing of all batches is defined exactly when there is a worker, and the first ends of
all pairs have found a number below the length of `sendfdBuff`. -/
theorem all_addressed_iff (used : Finset ℕ) (cpuNum : ℕ) :
    (∀ sum, (Config.ofMain used cpuNum).Addressed sum) ↔
      2 ≤ cpuNum ∧ 2*(cpuNum-1)+usedBelow used maxCpu < maxCpu := by
  simp only [addressed_iff]
  constructor
  · intro hall
    -- the last channel has the highest descriptors
    obtain ⟨hworkers, hlow⟩ := hall (cpuNum-2)
    rw [Nat.mod_eq_of_lt (by omega)] at hlow
    omega
  · rintro ⟨hworkers, hlow⟩ sum
    have hlt : sum % (cpuNum-1) < cpuNum-1 := Nat.mod_lt sum (by omega)
    omega

/-- On a machine with one processor the remainder divides by zero. -/
theorem one_processor_not_addressed :
    ¬ ∀ (used : Finset ℕ) (cpuNum sum : ℕ), 1 ≤ cpuNum →
      (Config.ofMain used cpuNum).Addressed sum :=
  fun hall => (hall {0, 1, 2} 1 0 (Nat.le_refl 1)).1 rfl

end LinuxPrograms.C1000k
