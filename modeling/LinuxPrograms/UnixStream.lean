import LinuxPrograms.LibRuns
import LinuxPrograms.LibThreads
import Mathlib.Logic.Function.Basic

/-! The clients and the iterative server of `unixStream` (us_xfr_cl.c, us_xfr_sv.c). Each client
copies its standard input to a stream socket, and the server copies one connection after the other
to its standard output, whatever the sizes of the reads and of the parts in which the kernel takes
what is written. -/
namespace LinuxPrograms.UnixStream
open Lib

/-- `BUF_SIZE`. -/
def bufSize : ℕ := 100

/-- `BACKLOG`. -/
def backlog : ℕ := 5

/-- Where a client is; it has `buf` still to write. -/
inductive ClientPc
  | connect
  | read
  | write (buf : List UInt8)
  | exited
  | failed
deriving DecidableEq, Repr

/-- A client, what is left of its standard input, and what the kernel has taken from it and not yet
given to the server. -/
structure Client where
  pc : ClientPc
  stdin : List UInt8
  sock : List UInt8
deriving DecidableEq, Repr

/-- The kernel has closed its socket. -/
def Client.closed (c : Client) : Bool := c.pc = .exited || c.pc = .failed

/-- Where the server is; when it fails, `lost` was read and not written. -/
inductive ServerPc
  | accept
  | read (cfd : ℕ)
  | write (cfd : ℕ) (buf : List UInt8)
  | failed (lost : List UInt8)
deriving DecidableEq, Repr

/-- The clients, by number; the connections that wait to be accepted; `accepted` lists those that
were, in order, and `got` what the server has read from each. -/
structure State where
  clients : List Client
  pending : List ℕ
  server : ServerPc
  stdout : List UInt8
  accepted : List ℕ
  got : ℕ → List UInt8

/-- `n` is the number of bytes a call transfers at most. -/
inductive Act
  | connect (i : ℕ)
  | clientRead (i n : ℕ)
  | clientWrite (i n : ℕ)
  | clientFail (i : ℕ)
  | accept
  | serverRead (n : ℕ)
  | serverWrite
  | serverFail (n : ℕ)
deriving DecidableEq, Repr

/-- The program ends with an error, or is killed. -/
def Act.fails : Act → Bool
  | .clientFail _ | .serverFail _ => true
  | _ => false

def setup (n : ℕ) (inputs : ℕ → List UInt8) : State where
  clients := (List.range n).map fun i => ⟨.connect, inputs i, []⟩
  pending := []
  server := .accept
  stdout := []
  accepted := []
  got := fun _ => []

/-- `read(STDIN_FILENO, buf, BUF_SIZE)`, and `exit` at the end of the input. -/
def clientRead (c : Client) (n : ℕ) : Option Client :=
  if c.pc = .read then
    if c.stdin = [] then some { c with pc := .exited }
    else
      let k := min n bufSize
      if k = 0 then none
      else some { c with pc := .write (c.stdin.take k), stdin := c.stdin.drop k }
  else none

/-- `write(sfd, buf, numRead)`: the kernel takes a part when there is room for it, and the call
returns when it has taken all. -/
def clientWrite (capacity : ℕ) (c : Client) (n : ℕ) : Option Client :=
  match c.pc with
  | .write buf =>
    if n = 0 ∨ c.sock.length+n > capacity then none
    else some { c with
      pc := if buf.length ≤ n then .read else .write (buf.drop n)
      sock := c.sock ++ buf.take n }
  | _ => none

/-- `errExit`, `fatal`, or a signal. -/
def clientFail (c : Client) : Option Client :=
  if c.closed then none else some { c with pc := .failed }

/-- One client moves. -/
def State.client (s : State) (i : ℕ) (f : Client → Option Client) : Option State :=
  (s.clients[i]?).bind fun c => (f c).map fun c' => { s with clients := s.clients.set i c' }

/-- `read(cfd, buf, BUF_SIZE)`, and `close(cfd)` when it returns 0. -/
def serverRead (s : State) (cfd : ℕ) (c : Client) (n : ℕ) : Option State :=
  if c.sock = [] then
    if c.closed then some { s with server := .accept } else none
  else
    let k := min n bufSize
    if k = 0 then none
    else some { s with
      server := .write cfd (c.sock.take k)
      clients := s.clients.set cfd { c with sock := c.sock.drop k }
      got := Function.update s.got cfd (s.got cfd ++ c.sock.take k) }

/-- One step; a client that connects waits while the queue of the listening socket is full. -/
def next (capacity : ℕ) (s : State) : Act → Option State
  | .connect i =>
    if s.pending.length > backlog then none
    else
      (s.client i fun c => if c.pc = .connect then some { c with pc := .read } else none).map
        fun s' => { s' with pending := s.pending ++ [i] }
  | .clientRead i n => s.client i fun c => clientRead c n
  | .clientWrite i n => s.client i fun c => clientWrite capacity c n
  | .clientFail i => s.client i clientFail
  | .accept =>
    match s.server, s.pending with
    | .accept, i :: pending =>
      some { s with server := .read i, pending := pending, accepted := s.accepted ++ [i] }
    | _, _ => none
  | .serverRead n =>
    match s.server with
    | .read cfd => (s.clients[cfd]?).bind fun c => serverRead s cfd c n
    | _ => none
  | .serverWrite =>
    match s.server with
    | .write cfd buf => some { s with server := .read cfd, stdout := s.stdout ++ buf }
    | _ => none
  | .serverFail n =>
    match s.server with
    | .write _ buf =>
      some { s with server := .failed (buf.drop n), stdout := s.stdout ++ buf.take n }
    | .failed _ => none
    | _ => some { s with server := .failed [] }

/-! What a step can do. -/

/-- A client moves after it has connected. -/
inductive ClientMove (capacity : ℕ) (c : Client) : Client → Prop
  | eof (hpc : c.pc = .read) (hend : c.stdin = []) : ClientMove capacity c { c with pc := .exited }
  | read {k : ℕ} (hpc : c.pc = .read) (hmore : c.stdin ≠ []) (hk : k ≠ 0) :
      ClientMove capacity c { c with pc := .write (c.stdin.take k), stdin := c.stdin.drop k }
  | write {buf : List UInt8} {n : ℕ} (hpc : c.pc = .write buf) (hn : n ≠ 0)
      (hroom : c.sock.length+n ≤ capacity) :
      ClientMove capacity c { c with
        pc := if buf.length ≤ n then .read else .write (buf.drop n)
        sock := c.sock ++ buf.take n }
  | fail (hopen : c.closed = false) : ClientMove capacity c { c with pc := .failed }

inductive Step (capacity : ℕ) (s : State) : State → Prop
  | connect {i : ℕ} {c : Client} (hi : s.clients[i]? = some c) (hpc : c.pc = .connect) :
      Step capacity s
        { s with clients := s.clients.set i { c with pc := .read }, pending := s.pending ++ [i] }
  | client {i : ℕ} {c c' : Client} (hi : s.clients[i]? = some c)
      (hmove : ClientMove capacity c c') : Step capacity s { s with clients := s.clients.set i c' }
  | accept {i : ℕ} {pending : List ℕ} (hpc : s.server = .accept) (hi : s.pending = i :: pending) :
      Step capacity s
        { s with server := .read i, pending := pending, accepted := s.accepted ++ [i] }
  | hangUp {cfd : ℕ} {c : Client} (hpc : s.server = .read cfd) (hc : s.clients[cfd]? = some c)
      (hsock : c.sock = []) (hclosed : c.closed = true) :
      Step capacity s { s with server := .accept }
  | receive {cfd k : ℕ} {c : Client} (hpc : s.server = .read cfd) (hc : s.clients[cfd]? = some c)
      (hsock : c.sock ≠ []) (hk : k ≠ 0) :
      Step capacity s { s with
        server := .write cfd (c.sock.take k)
        clients := s.clients.set cfd { c with sock := c.sock.drop k }
        got := Function.update s.got cfd (s.got cfd ++ c.sock.take k) }
  | print {cfd : ℕ} {buf : List UInt8} (hpc : s.server = .write cfd buf) :
      Step capacity s { s with server := .read cfd, stdout := s.stdout ++ buf }
  | lose {cfd n : ℕ} {buf : List UInt8} (hpc : s.server = .write cfd buf) :
      Step capacity s { s with server := .failed (buf.drop n), stdout := s.stdout ++ buf.take n }
  | fail (hpc : ∀ cfd buf, s.server ≠ .write cfd buf) (hlost : ∀ lost, s.server ≠ .failed lost) :
      Step capacity s { s with server := .failed [] }

variable {capacity : ℕ} {s s' : State} {a : Act}

theorem client_step {i : ℕ} {f : Client → Option Client} (h : s.client i f = some s')
    (hf : ∀ c c', f c = some c' → ClientMove capacity c c') : Step capacity s s' := by
  obtain ⟨c, hi, h⟩ := Option.bind_eq_some_iff.mp h
  obtain ⟨c', hc', rfl⟩ := Option.map_eq_some_iff.mp h
  exact .client hi (hf c c' hc')

theorem clientRead_move {c c' : Client} {n : ℕ} (h : clientRead c n = some c') :
    ClientMove capacity c c' := by
  unfold clientRead at h
  split at h
  · next hpc =>
    split at h
    · next hend =>
      cases h
      exact .eof hpc hend
    next hmore =>
      dsimp only at h
      split at h <;> cases h
      next hk => exact .read hpc hmore hk
  · cases h

theorem clientWrite_move {c c' : Client} {n : ℕ} (h : clientWrite capacity c n = some c') :
    ClientMove capacity c c' := by
  unfold clientWrite at h
  split at h
  · next buf hpc =>
    split at h <;> cases h
    next hroom =>
      rw [not_or, Nat.not_lt] at hroom
      exact .write hpc hroom.1 hroom.2
  · cases h

theorem clientFail_move {c c' : Client} (h : clientFail c = some c') :
    ClientMove capacity c c' := by
  unfold clientFail at h
  split at h <;> cases h
  next hopen => exact .fail (Bool.eq_false_iff.mpr hopen)

theorem serverRead_step {cfd n : ℕ} {c : Client} (hpc : s.server = .read cfd)
    (hc : s.clients[cfd]? = some c) (h : serverRead s cfd c n = some s') : Step capacity s s' := by
  unfold serverRead at h
  split at h
  · next hsock =>
    split at h <;> cases h
    next hclosed => exact .hangUp hpc hc hsock hclosed
  · next hsock =>
    dsimp only at h
    split at h <;> cases h
    next hk => exact .receive hpc hc hsock hk

theorem next_step (h : next capacity s a = some s') : Step capacity s s' := by
  cases a with
  | connect i =>
    simp only [next] at h
    split at h
    · cases h
    · obtain ⟨s₁, hmove, rfl⟩ := Option.map_eq_some_iff.mp h
      obtain ⟨c, hi, hmove⟩ := Option.bind_eq_some_iff.mp hmove
      obtain ⟨c', hc', rfl⟩ := Option.map_eq_some_iff.mp hmove
      dsimp only at hc'
      split at hc'
      · next hpc =>
        cases hc'
        exact .connect hi hpc
      · cases hc'
  | clientRead i n => exact client_step h fun _ _ => clientRead_move
  | clientWrite i n => exact client_step h fun _ _ => clientWrite_move
  | clientFail i => exact client_step h fun _ _ => clientFail_move
  | accept =>
    simp only [next] at h
    split at h <;> cases h
    next i pending hpc hi => exact .accept hpc hi
  | serverRead n =>
    simp only [next] at h
    split at h
    · next cfd hpc =>
      obtain ⟨c, hc, h⟩ := Option.bind_eq_some_iff.mp h
      exact serverRead_step hpc hc h
    · cases h
  | serverWrite =>
    simp only [next] at h
    split at h <;> cases h
    next cfd buf hpc => exact .print hpc
  | serverFail n =>
    simp only [next] at h
    split at h
    · next cfd buf hpc =>
      cases h
      exact .lose hpc
    · cases h
    · next hwrite hlost =>
      cases h
      exact .fail hwrite hlost

end LinuxPrograms.UnixStream
