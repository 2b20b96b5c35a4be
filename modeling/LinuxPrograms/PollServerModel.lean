import LinuxPrograms.LibArrays
import LinuxPrograms.LibRuns
import Mathlib.Data.Int.Order.Basic

/-! The poll server (serverModel.c): the connection table `pClients`, the watch table
`watchedfds`, and the functions its main loop calls. `watchedfds` has its `MAX_WATCHEDFD` entries
here, as the loops of the source take it; the block that `Initialize` allocates for it is shorter
(`watchedfdsBytes`). -/
namespace LinuxPrograms.PollServer
open Lib

def maxService : ℕ := 3

def maxConnections : ℕ := 10

def maxWatchedfd : ℕ := maxConnections+maxService

/-- `sizeof(struct pollfd)`: an `int` and two `short`s. -/
def sizeofPollfd : ℕ := 8

/-- What `Initialize` asks `malloc` for: `sizeof(struct pollfd) * MAX_WATCHEDFD`, where the macro
has no parentheses. -/
def watchedfdsBytes : ℕ := sizeofPollfd*maxConnections+maxService

def port1 : ℤ := 50000

def netBufferSize : ℕ := 1024

/-- The connections kept for other services. -/
def reserveConn : ℕ := 2

def POLLIN : BitVec 32 := 1

def POLLOUT : BitVec 32 := 4

inductive ConnectionState
  | eIdle
  | eNewConnection
  | eDataReceived
deriving DecidableEq, Repr

inductive HandleHook
  | port1Callback
deriving DecidableEq, Repr

structure Connection where
  inUse : Bool
  socket : ℤ
  closePending : Bool
  state : ConnectionState
  idleTime : ℤ
  pendingSendBuffer : List UInt8
  clientCallback : Option HandleHook
  clientCallbackStackSize : ℕ
  clientCallbackRunningNow : Bool
deriving DecidableEq, Repr

/-- `memset(connection, 0, sizeof(Connection))`. -/
def Connection.zero : Connection :=
  ⟨false, 0, false, .eIdle, 0, List.replicate netBufferSize 0, none, 0, false⟩

/-- A connection as `Initialize` and `CloseConnection` leave it. -/
def Connection.cleared : Connection := { Connection.zero with socket := -1 }

structure Pollfd where
  fd : ℤ
  events : BitVec 32
  revents : BitVec 32
deriving DecidableEq, Repr

structure Server where
  watchedfds : ℕ → Pollfd
  pClients : ℕ → Connection
  connectionsActive : ℤ
  opened : ℤ → Bool  -- the descriptors the kernel has open

/-- The slots of `pClients`. -/
def slots : List ℕ := List.range maxConnections

/-- The entries of `watchedfds` that watch connections. -/
def watches : List ℕ := List.range' maxService (maxWatchedfd-maxService)

/-- The slots `NewConnection` looks at. -/
def freeSlots : List ℕ := List.range' reserveConn (maxConnections-reserveConn)

/-- `Initialize`, and the listening socket watched by the first entry. -/
def initializeServer (tcpListeningfd : ℤ) (opened : ℤ → Bool) : Server where
  watchedfds := fun i =>
    if i = 0 ∧ tcpListeningfd ≠ -1 then ⟨tcpListeningfd, POLLIN, 0⟩ else ⟨-1, 0, 0⟩
  pClients := fun _ => .cleared
  connectionsActive := 0
  opened := opened

def Server.setClient (s : Server) (i : ℕ) (c : Connection) : Server :=
  { s with pClients := Function.update s.pClients i c }

def Server.setWatch (s : Server) (j : ℕ) (p : Pollfd) : Server :=
  { s with watchedfds := Function.update s.watchedfds j p }

/-- The first entry watching `socket`; only its descriptor is reset. -/
def Server.unwatch (s : Server) (socket : ℤ) : Server :=
  match watches.find? (fun j => decide ((s.watchedfds j).fd = socket)) with
  | some j => s.setWatch j ⟨-1, 0, 0⟩
  | none => s

/-- `CloseConnection(&pClients[i])`. -/
def closeConnection (s : Server) (i : ℕ) : Server :=
  if s.connectionsActive = 0 then s
  else
    -- nothing below looks at `inUse`
    let socket := (s.pClients i).socket
    let s₁ := s.unwatch socket
    let s₂ := s₁.setClient i .cleared
    { s₂ with
      opened := Function.update s.opened socket false
      connectionsActive := s.connectionsActive-1 }

/-- `none` is a failed assertion. -/
def findIndex (s : Server) (socket : ℤ) : Option ℤ :=
  if socket = 0 then none
  else
    let index : ℤ :=
      match watches.find? (fun j => decide (socket = (s.watchedfds j).fd)) with
      | some j => j
      | none => -1
    if index = 0 then none else some index

/-- `watchedfds[findIndex(socket)].fd | mask`, as a condition: `none` is a failed assertion or an
index outside the table. Note that it reads `fd` where `revents` was meant. -/
def watchedWith (s : Server) (socket : ℤ) (mask : BitVec 32) : Option Bool :=
  match findIndex s socket with
  | none => none
  | some index =>
    if index < 0 then none
    else some (decide ((BitVec.ofInt 32 (s.watchedfds index.toNat).fd ||| mask) ≠ 0))

/-- One round of `ReceiveLoop`; `bytes` is what `recv` returned. -/
def receiveStep (recv : ℕ → ℤ) (s : Server) (i : ℕ) : Option Server :=
  if (s.pClients i).inUse then
    match watchedWith s (s.pClients i).socket POLLIN with
    | none => none
    | some false => some s
    | some true =>
      let bytes := recv i
      if 0 < bytes then some (s.setClient i { s.pClients i with state := .eDataReceived })
      else some (closeConnection s i)  -- 0, or -1 whatever `errno` is
  else some s

def receiveLoop (s : Server) (recv : ℕ → ℤ) : Option Server :=
  if s.connectionsActive = 0 then some s else slots.foldlM (receiveStep recv) s

/-- What `send` returned. -/
inductive SendRet
  | count (n : ℕ)
  | again  -- -1 with `EINTR` or `EAGAIN`
  | error
deriving DecidableEq, Repr

/-- The loop of `TransmitPending`. Its `break` leaves the `switch` only, so an error changes what
the function returns and the loop goes on; `none` when it has not ended. -/
def sendLoop : List SendRet → ℕ → ℕ → Bool → Option Bool
  | _, 0, _, status => some status
  | [], _+1, _, _ => none
  | .count 0 :: sends, bytesToBeSend+1, retry, _ => sendLoop sends (bytesToBeSend+1) retry false
  | .count (n+1) :: sends, bytesToBeSend+1, retry, status =>
    -- `send` takes no more than it is given
    if n ≤ bytesToBeSend then sendLoop sends (bytesToBeSend-n) retry status else none
  | .again :: sends, bytesToBeSend+1, retry, status =>
    sendLoop sends (bytesToBeSend+1) (retry+1) (if 3 < retry+1 then false else status)
  | .error :: sends, bytesToBeSend+1, retry, _ => sendLoop sends (bytesToBeSend+1) retry false

def strlen (buffer : List UInt8) : ℕ := (buffer.takeWhile (· ≠ 0)).length

/-- `TransmitPending(&pClients[i])`: the status and the server afterwards. -/
def transmitPending (s : Server) (i : ℕ) (sends : List SendRet) : Option (Bool × Server) :=
  let c := s.pClients i
  if c.socket = -1 then some (false, s)
  else
    match sendLoop sends (strlen c.pendingSendBuffer+1) 0 true with
    | none => none
    | some status =>
      some (status, s.setClient i
        { c with pendingSendBuffer := List.replicate netBufferSize 0 })

/-- `NULL == pClients[i].pendingSendBuffer`, an array. -/
def arrayIsNull : Bool := false

/-- One round of `TransmitPendingLoop`. -/
def transmitStep (sends : ℕ → List SendRet) (s : Server) (i : ℕ) : Option Server :=
  if (s.pClients i).inUse ∧ ¬ arrayIsNull then
    match watchedWith s (s.pClients i).socket POLLOUT with
    | none => none
    | some false => some s
    | some true =>
      match transmitPending s i (sends i) with
      | none => none
      | some (false, s₁) => some (closeConnection s₁ i)
      | some (true, s₁) =>
        if arrayIsNull then
          -- the normal path: idle again, or closed if that is pending
          let c := s₁.pClients i
          let s₂ := if c.state ≠ .eIdle then s₁.setClient i { c with state := .eIdle, idleTime := 0 }
            else s₁
          some (if c.closePending then closeConnection s₂ i else s₂)
        else some s₁
  -- meant for a closed connection whose buffers are sent
  else if (s.pClients i).inUse = false ∧ ¬ arrayIsNull then some (closeConnection s i)
  else some s

def transmitPendingLoop (s : Server) (sends : ℕ → List SendRet) : Option Server :=
  slots.foldlM (transmitStep sends) s

/-- One round of the search for a connection to evict: the best so far and its idle time. -/
def staleStep (s : Server) (best : Option ℕ × ℤ) (i : ℕ) : Option ℕ × ℤ :=
  let c := s.pClients i
  if best.2 < c.idleTime ∧ (c.state = .eIdle ∨ c.state = .eNewConnection) ∧
      c.clientCallbackRunningNow = false then (some i, c.idleTime)
  else best

def staleIndex (s : Server) : Option ℕ := (freeSlots.foldl (staleStep s) (none, 0)).1

/-- A free entry is given to the socket; when there is none, nothing happens. -/
def Server.watch (s : Server) (peerSocket : ℤ) : Server :=
  match watches.find? (fun j => decide ((s.watchedfds j).fd = -1)) with
  | some j => s.setWatch j { s.watchedfds j with fd := peerSocket, events := POLLIN ||| POLLOUT }
  | none => s

/-- The connection `NewConnection` sets up. -/
def newClient (serverSocket peerSocket : ℤ) : Connection :=
  { Connection.zero with
    socket := peerSocket
    inUse := true
    state := .eNewConnection
    clientCallback := if serverSocket = port1 then some .port1Callback else none
    clientCallbackStackSize := if serverSocket = port1 then 4096 else 0 }

/-- The accepted socket takes the slot and an entry of the watch table. -/
def Server.connect (s : Server) (indexToUse : ℕ) (serverSocket peerSocket : ℤ) : Server :=
  let s₁ := (s.setClient indexToUse (newClient serverSocket peerSocket)).watch peerSocket
  { s₁ with
    opened := Function.update s.opened peerSocket true
    connectionsActive := s.connectionsActive+1 }

/-- The second half of `NewConnection`; `accept` returns `peerSocket`. -/
def establishConnection (s : Server) (serverSocket peerSocket : ℤ) : ℤ × Server :=
  match freeSlots.find? (fun i => !(s.pClients i).inUse) with
  | none => (-1, s)
  | some indexToUse =>
    if 0 ≤ peerSocket then (peerSocket, s.connect indexToUse serverSocket peerSocket)
    else (peerSocket, s)

/-- The first half of `NewConnection`; `none` when there is no connection to evict. -/
def makeRoom (s : Server) : Option Server :=
  if (maxConnections : ℤ) ≤ s.connectionsActive+reserveConn then
    (staleIndex s).map (closeConnection s)
  else some s

def newConnection (s : Server) (serverSocket peerSocket : ℤ) : ℤ × Server :=
  match makeRoom s with
  | some s₁ => establishConnection s₁ serverSocket peerSocket
  | none => (-1, s)

/-- What `ServerRun` and the callbacks set in a connection in use. -/
structure SlotUpdate where
  closePending : Bool
  state : ConnectionState
  idleTime : ℤ
  pendingSendBuffer : List UInt8
  clientCallbackStackSize : ℕ
  clientCallbackRunningNow : Bool

def SlotUpdate.apply (u : SlotUpdate) (c : Connection) : Connection :=
  if c.inUse then
    { c with
      closePending := u.closePending
      state := u.state
      idleTime := u.idleTime
      pendingSendBuffer := u.pendingSendBuffer
      clientCallbackStackSize := u.clientCallbackStackSize
      clientCallbackRunningNow := u.clientCallbackRunningNow }
  else c

inductive Act
  | poll (revents : ℕ → BitVec 32)
  | newConnection (serverSocket peerSocket : ℤ)
  | receiveLoop (recv : ℕ → ℤ)
  | transmitPendingLoop (sends : ℕ → List SendRet)
  | closeConnection (i : ℕ)
  | serverRun (u : ℕ → SlotUpdate)

/-- The steps of the main loop, in any order. -/
def nextServer (s : Server) : Act → Option Server
  | .poll revents =>
    some { s with watchedfds := fun j => { s.watchedfds j with revents := revents j } }
  | .newConnection serverSocket peerSocket => some (newConnection s serverSocket peerSocket).2
  | .receiveLoop recv => receiveLoop s recv
  | .transmitPendingLoop sends => transmitPendingLoop s sends
  | .closeConnection i => if i < maxConnections then some (closeConnection s i) else none
  | .serverRun u => some { s with pClients := fun i => (u i).apply (s.pClients i) }

end LinuxPrograms.PollServer
