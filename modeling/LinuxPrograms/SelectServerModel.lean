import LinuxPrograms.LibRecords
import Mathlib.Data.List.Infix

/-! `TransmitPending` of the select server (select/serverModel.c). The loop keeps the place it has
reached in `buffer` and `nextBuffer` only: `buffer` starts again with each call, and `nextBuffer`
keeps its value when the buffer is cleared. -/
namespace LinuxPrograms.SelectServer
open Lib

def netBufferSize : ℕ := 1024

/-- `errno` values. -/
def EWOULDBLOCK : ℕ := 11
def EINVAL : ℕ := 22

abbrev NetBuffer := Vector UInt8 netBufferSize

/-- What `TransmitPending` uses of a connection, and the arrays that follow the one it sends. -/
structure Connection where
  socket : ℤ
  pendingSendBuffer : NetBuffer
  partialSendBuffer : NetBuffer
  recvBuffer : NetBuffer

/-- The memory from `pendingSendBuffer` on. -/
def Connection.memory (c : Connection) : List UInt8 :=
  c.pendingSendBuffer.toList ++ (c.partialSendBuffer.toList ++ c.recvBuffer.toList)

/-- `memset(connection->pendingSendBuffer, 0, NET_BUFFER_SIZE)`. -/
def Connection.clear (c : Connection) : Connection :=
  { c with pendingSendBuffer := Vector.replicate netBufferSize 0 }

/-- What a call of `send` meets: at most `n` bytes fit, or it fails. -/
inductive SendResult
  | took (n : ℕ)
  | failed (errno : ℕ)
deriving DecidableEq

/-- The variables of `TransmitPending`; the pointers are places in the memory from
`pendingSendBuffer` on, and `none` is `NULL`. -/
structure Locals where
  ok : Bool
  status : Bool
  buffer : Option ℕ
  nextBuffer : Option ℕ

/-- `send(connection->socket, buffer, strlen(buffer)+1, 0)`: `bytes`, `savedErrno`, and the bytes
the socket takes, each with its place. -/
def send (c : Connection) (buffer : ℕ) : SendResult → ℤ × ℕ × List (UInt8 × ℕ)
  | .took n =>
    let bytes := min n (strlen (c.memory.drop buffer)+1)
    (bytes, 0, ((c.memory.drop buffer).take bytes).zipIdx buffer)
  | .failed errno => (-1, errno, [])

/-- The body of the loop after `send`. -/
def transmitBody (c : Connection) (l : Locals) (buffer : ℕ) (bytes : ℤ) (savedErrno : ℕ) :
    Connection × Locals :=
  let buffer := if 0 < bytes then buffer+bytes.toNat else buffer
  let isEmpty : Bool := strlen (c.memory.drop buffer) = 0
  let c := if isEmpty then c.clear else c
  let l := if isEmpty then { l with buffer := none }
    else { l with buffer := some buffer, nextBuffer := some buffer }
  if bytes < 0 then
    if savedErrno = 0 then (c, l)
    else if savedErrno = EWOULDBLOCK then (c, { l with ok := false, status := true })
    else
      match l.buffer with
      | some _ => (c.clear, ⟨false, false, none, none⟩)
      | none => (c, { l with ok := false, status := false })
  else (c, l)

/-- A call of `TransmitPending`: what it returned, or `none` while it waits for `send`; the bytes
the socket took; the results of `send` it has used and those it left. -/
structure Call where
  status : Option Bool
  conn : Connection
  sent : List (UInt8 × ℕ)
  used : List SendResult
  rest : List SendResult

/-- The loop, entered with the test of the `for`. -/
def transmitLoop (c : Connection) (l : Locals) (results : List SendResult) : Call :=
  match l.ok, l.buffer with
  | true, some buffer =>
    if c.socket = -1 then
      -- nothing is sent, and the error ends the loop
      let (c, l) := transmitBody c l buffer (-1) EINVAL
      ⟨some l.status, c, [], [], results⟩
    else
      match results with
      | [] => ⟨none, c, [], [], []⟩
      | r :: rest =>
        let (bytes, savedErrno, taken) := send c buffer r
        let (c, l) := transmitBody c l buffer bytes savedErrno
        let call := transmitLoop c { l with buffer := l.nextBuffer } rest
        { call with sent := taken ++ call.sent, used := r :: call.used }
  | _, _ => ⟨some l.status, c, [], [], results⟩

/-- `TransmitPending(connection)`. -/
def transmitPending (c : Connection) (results : List SendResult) : Call :=
  transmitLoop c ⟨true, true, some 0, none⟩ results

/-- The connection after some calls, what they sent, and the results of `send` to come. -/
structure After where
  conn : Connection
  sent : List (UInt8 × ℕ)
  rest : List SendResult

/-- `n` calls, one after the other; `none` when one of them does not return. -/
def transmitPendings : ℕ → Connection → List SendResult → Option After
  | 0, c, results => some ⟨c, [], results⟩
  | n+1, c, results =>
    let call := transmitPending c results
    match call.status with
    | none => none
    | some _ =>
      (transmitPendings n call.conn call.rest).map fun a => { a with sent := call.sent ++ a.sent }

/-! What is to be sent, and what it is to be sent once. -/

/-- The string `s` waits in the send buffer, and the rest of the buffer is zero. -/
structure Connection.Pending (c : Connection) (s : List UInt8) : Prop where
  bytes : c.pendingSendBuffer.toList = s ++ List.replicate (netBufferSize-s.length) 0
  noNul : 0 ∉ s
  fits : s.length < netBufferSize

/-- The string and its terminating byte, each byte with its place. -/
def pendingBytes (s : List UInt8) : List (UInt8 × ℕ) := (s ++ [0]).zipIdx

def SendResult.Accepts : SendResult → Prop
  | .took n => 0 < n
  | .failed _ => False

instance : DecidablePred SendResult.Accepts
  | .took n => inferInstanceAs (Decidable (0 < n))
  | .failed _ => inferInstanceAs (Decidable False)

/-- A call that has used the results `used`, after calls that sent `before`. What the socket has
taken is, in order, the first bytes of the string; when no `send` refuses, the call returns with
everything sent; and once everything is sent the call is over. -/
structure CallOk (s : List UInt8) (before : List (UInt8 × ℕ)) (status : Option Bool)
    (c : Connection) (sent : List (UInt8 × ℕ)) (used : List SendResult) : Prop where
  inOrder : before ++ sent <+: pendingBytes s
  complete : used ≠ [] → (∀ r ∈ used, r.Accepts) → status ≠ none →
    status = some true ∧ before ++ sent = pendingBytes s ∧ c.Pending []
  ends : sent ≠ [] → pendingBytes s <+: before ++ sent → status = some true ∧ c.Pending []

/-- Every call, at the moment when `send` has given the results `moment`. -/
def SentAt (s : List UInt8) (before : List (UInt8 × ℕ)) (c : Connection)
    (moment : List SendResult) : Prop :=
  ∀ n a, transmitPendings n c moment = some a →
    let call := transmitPending a.conn a.rest
    CallOk s (before ++ a.sent) call.status call.conn call.sent call.used

/-- The string is sent once: every call, at every moment. -/
def SentOnce (s : List UInt8) (c : Connection) (results : List SendResult) : Prop :=
  ∀ moment, moment <+: results → SentAt s [] c moment

end LinuxPrograms.SelectServer
