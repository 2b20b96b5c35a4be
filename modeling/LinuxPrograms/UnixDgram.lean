import LinuxPrograms.LibRuns
import LinuxPrograms.LibThreads

/-! The clients and the server of `unixDgram` (ud_ucase_cl.c, ud_ucase_sv.c). Each client sends its
arguments one by one and waits for the answer to each; the server answers in upper case. -/
namespace LinuxPrograms.UnixDgram
open Lib

/-- `BUF_SIZE`: what is longer is cut off by `recvfrom`. -/
def bufSize : ℕ := 10

/-- `toupper((unsigned char) c)` in the C locale. -/
def toupper (c : UInt8) : UInt8 := if 97 ≤ c ∧ c ≤ 122 then c-32 else c

/-- `recvfrom(sfd, buf, BUF_SIZE, …)`. -/
def receive (datagram : List UInt8) : List UInt8 := datagram.take bufSize

/-- What `%.*s` prints of the bytes that were received. -/
def shown (resp : List UInt8) : List UInt8 := resp.takeWhile (· ≠ 0)

inductive ClientPc
  | send
  | wait
  | exited
  | failed
deriving DecidableEq, Repr

/-- A client, the arguments it has not sent yet, the number `j` of the next, what has arrived at its
socket, and what it has printed. -/
structure Client where
  pc : ClientPc
  argv : List (List UInt8)
  j : ℕ
  inbox : List (List UInt8)
  printed : List (ℕ × List UInt8)
deriving DecidableEq, Repr

/-- Its socket is closed. -/
def Client.closed (c : Client) : Bool := c.pc = .exited || c.pc = .failed

/-- The server; it dies when a `sendto` fails, or is killed. -/
inductive ServerPc
  | recv
  | send (claddr : ℕ) (buf : List UInt8)
  | fatal (claddr : ℕ)
  | killed
deriving DecidableEq, Repr

def ServerPc.alive : ServerPc → Bool
  | .recv | .send _ _ => true
  | _ => false

/-- `inbox` holds what has arrived at the server's socket, and from whom. -/
structure State where
  clients : List Client
  inbox : List (ℕ × List UInt8)
  server : ServerPc
deriving DecidableEq, Repr

inductive Act
  | clientSend (i : ℕ)
  | clientRecv (i : ℕ)
  | clientFail (i : ℕ)
  | serverRecv
  | serverSend
  | serverFail
deriving DecidableEq, Repr

/-- A program ends with an error, or is killed. -/
def Act.fails : Act → Bool
  | .clientFail _ | .serverFail => true
  | _ => false

def setup (messages : List (List (List UInt8))) : State where
  clients := messages.map fun argv => ⟨.send, argv, 1, [], []⟩
  inbox := []
  server := .recv

/-- `sendto(sfd, argv[j], msgLen, …)`, which waits while the server's socket holds `room` datagrams
and fails once that is closed; after the last argument, `exit`. The check of the usage before
(`argc < 2`, `--help`) is left out: a client that it ends is one that fails. -/
def clientSend (room : ℕ) (s : State) (i : ℕ) (c : Client) : Option State :=
  match c.pc, c.argv with
  | .send, [] => some { s with clients := s.clients.set i { c with pc := .exited } }
  | .send, m :: argv =>
    if s.server.alive = false then
      some { s with clients := s.clients.set i { c with pc := .failed } }
    else if s.inbox.length < room then
      some { s with
        clients := s.clients.set i { c with pc := .wait, argv := argv }
        inbox := s.inbox ++ [(i, m)] }
    else none
  | _, _ => none

/-- `recvfrom(sfd, resp, BUF_SIZE, …)` and `printf`. -/
def clientRecv (s : State) (i : ℕ) (c : Client) : Option State :=
  match c.pc, c.inbox with
  | .wait, datagram :: inbox =>
    some { s with clients := s.clients.set i { c with
      pc := .send
      j := c.j+1
      inbox := inbox
      printed := c.printed ++ [(c.j, shown (receive datagram))] } }
  | _, _ => none

/-- The loop of the server. -/
def serverSend (s : State) (claddr : ℕ) (buf : List UInt8) : Option State :=
  (s.clients[claddr]?).map fun c =>
    if c.closed then { s with server := .fatal claddr }
    else { s with
      server := .recv
      clients := s.clients.set claddr { c with inbox := c.inbox ++ [buf] } }

def next (room : ℕ) (s : State) : Act → Option State
  | .clientSend i => (s.clients[i]?).bind (clientSend room s i)
  | .clientRecv i => (s.clients[i]?).bind (clientRecv s i)
  | .clientFail i =>
    (s.clients[i]?).bind fun c =>
      if c.closed then none
      else some { s with clients := s.clients.set i { c with pc := .failed } }
  | .serverRecv =>
    match s.server, s.inbox with
    | .recv, (claddr, datagram) :: inbox =>
      some { s with server := .send claddr ((receive datagram).map toupper), inbox := inbox }
    | _, _ => none
  | .serverSend =>
    match s.server with
    | .send claddr buf => serverSend s claddr buf
    | _ => none
  | .serverFail =>
    match s.server with
    | .recv | .send _ _ => some { s with server := .killed }
    | _ => none

/-! What a step can do. -/

inductive Step (room : ℕ) (s : State) : State → Prop
  | exit {i : ℕ} {c : Client} (hi : s.clients[i]? = some c) (hpc : c.pc = .send)
      (hargv : c.argv = []) :
      Step room s { s with clients := s.clients.set i { c with pc := .exited } }
  | request {i : ℕ} {c : Client} {m : List UInt8} {argv : List (List UInt8)}
      (hi : s.clients[i]? = some c) (hpc : c.pc = .send) (hargv : c.argv = m :: argv)
      (hserver : s.server.alive = true) (hroom : s.inbox.length < room) :
      Step room s { s with
        clients := s.clients.set i { c with pc := .wait, argv := argv }
        inbox := s.inbox ++ [(i, m)] }
  | response {i : ℕ} {c : Client} {datagram : List UInt8} {inbox : List (List UInt8)}
      (hi : s.clients[i]? = some c) (hpc : c.pc = .wait) (hinbox : c.inbox = datagram :: inbox) :
      Step room s { s with clients := s.clients.set i { c with
        pc := .send
        j := c.j+1
        inbox := inbox
        printed := c.printed ++ [(c.j, shown (receive datagram))] } }
  | clientFail {i : ℕ} {c : Client} (hi : s.clients[i]? = some c) (hopen : c.closed = false) :
      Step room s { s with clients := s.clients.set i { c with pc := .failed } }
  | receive {claddr : ℕ} {datagram : List UInt8} {inbox : List (ℕ × List UInt8)}
      (hpc : s.server = .recv) (hinbox : s.inbox = (claddr, datagram) :: inbox) :
      Step room s
        { s with server := .send claddr ((receive datagram).map toupper), inbox := inbox }
  | answer {claddr : ℕ} {buf : List UInt8} {c : Client} (hpc : s.server = .send claddr buf)
      (hi : s.clients[claddr]? = some c) (hopen : c.closed = false) :
      Step room s { s with
        server := .recv
        clients := s.clients.set claddr { c with inbox := c.inbox ++ [buf] } }
  | fatal {claddr : ℕ} {buf : List UInt8} {c : Client} (hpc : s.server = .send claddr buf)
      (hi : s.clients[claddr]? = some c) (hclosed : c.closed = true) :
      Step room s { s with server := .fatal claddr }
  | serverFail (hpc : s.server = .recv ∨ ∃ claddr buf, s.server = .send claddr buf) :
      Step room s { s with server := .killed }

variable {room : ℕ} {s s' : State} {a : Act}

theorem next_step (h : next room s a = some s') : Step room s s' := by
  cases a with
  | clientSend i =>
    obtain ⟨c, hi, h⟩ := Option.bind_eq_some_iff.mp h
    unfold clientSend at h
    split at h
    · next hpc hargv =>
      cases h
      exact .exit hi hpc hargv
    · next m argv hpc hargv =>
      split at h
      · cases h
        exact .clientFail hi (by rw [Client.closed, hpc]; rfl)
      · next hserver =>
        split at h <;> cases h
        next hroom => exact .request hi hpc hargv (Bool.not_eq_false _ ▸ hserver) hroom
    · cases h
  | clientRecv i =>
    obtain ⟨c, hi, h⟩ := Option.bind_eq_some_iff.mp h
    unfold clientRecv at h
    split at h <;> cases h
    next datagram inbox hpc hinbox => exact .response hi hpc hinbox
  | clientFail i =>
    obtain ⟨c, hi, h⟩ := Option.bind_eq_some_iff.mp h
    split at h <;> cases h
    next hopen => exact .clientFail hi (Bool.eq_false_iff.mpr hopen)
  | serverRecv =>
    simp only [next] at h
    split at h <;> cases h
    next claddr datagram inbox hpc hinbox => exact .receive hpc hinbox
  | serverSend =>
    simp only [next] at h
    split at h
    · next claddr buf hpc =>
      obtain ⟨c, hi, rfl⟩ := Option.map_eq_some_iff.mp h
      split
      · next hclosed => exact .fatal hpc hi hclosed
      · next hopen => exact .answer hpc hi (Bool.eq_false_iff.mpr hopen)
    · cases h
  | serverFail =>
    simp only [next] at h
    split at h <;> cases h
    · next hpc => exact .serverFail (.inl hpc)
    · next claddr buf hpc => exact .serverFail (.inr ⟨claddr, buf, hpc⟩)

end LinuxPrograms.UnixDgram
