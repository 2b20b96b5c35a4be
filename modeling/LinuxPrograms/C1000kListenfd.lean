import LinuxPrograms.C1000kNetwork
import LinuxPrograms.LibRuns
import Mathlib.Logic.Function.Basic

/-! The accepting side of the c1000k server (listenfd.cc, and what main.cc sets up for it):
the main thread's event loop with `accept_readfun`, the list under `dispatch_mutex`, and
`dispatch_conn` with `sendConnectionsToWorker`. A step is one system call, one critical section
or one buffer operation of one thread, so every interleaving of the two threads is a run. -/
namespace LinuxPrograms.C1000k
open Lib

/-- What main fixes before it starts the threads. The kernel gives distinct descriptors. -/
structure Config where
  cpuNum : ℕ
  listenfd : ℕ
  peer : ℕ → ℕ  -- `sockfdpair[i][0]`
  peer_inj : ∀ i j, 1 ≤ i → i < cpuNum → 1 ≤ j → j < cpuNum → peer i = peer j → i = j
  peer_ne_listenfd : ∀ i, 1 ≤ i → i < cpuNum → peer i ≠ listenfd

/-- The rows of `sockfdpair` that main fills. -/
def Config.channels (cfg : Config) : List ℕ := List.range' 1 (cfg.cpuNum-1)

theorem Config.mem_channels (cfg : Config) (i : ℕ) :
    i ∈ cfg.channels ↔ 1 ≤ i ∧ i < cfg.cpuNum := by
  rw [channels, List.mem_range'_1]
  omega

/-- One worker, whose socketpair ends are 4 and 5. -/
def twoCpus : Config where
  cpuNum := 2
  listenfd := 3
  peer := fun i => 2*i+2
  peer_inj := by omega
  peer_ne_listenfd := by omega

inductive Errno
  | EAGAIN
  | ECONNABORTED
  | EPROTO
  | EINTR
  | other (n : ℕ)
deriving DecidableEq, Repr

/-- What `accept` returned: a descriptor, or -1 with `errno`. -/
inductive AcceptRet
  | fd (newacceptfd : ℕ)
  | error (errno : Errno)
deriving DecidableEq, Repr

/-- The locals of `sendConnectionsToWorker`; `broke` is set when the loop ended on a failed send. -/
structure SendFrame where
  fd : ℕ
  needSend : ℤ
  sended : ℤ
  broke : Bool

/-- The three tests of `process_one_event`, in order. -/
inductive Stage
  | read
  | write
  | hangup

/-- Where the main thread is in `process_event`: the current event and those after it. -/
structure Point where
  stage : Stage
  ev : Event
  evs : List Event

inductive MainPc
  | wait
  | handling (p : Point)
  | accept (listenfd : ℕ) (fdBuff : List ℕ) (ret : Point)
  | push (listenfd : ℕ) (fdBuff : List ℕ) (again : Bool) (ret : Point)
  | send (f : SendFrame) (ret : Point)

inductive DispatchPc
  | wait
  | work (paccept : List AcceptedFD)
  | send (f : SendFrame) (next : List AcceptedFD)

structure Server where
  gFDITEM : ℕ → FDITEM
  mainEpoll : List (ℕ × Events)
  main : MainPc
  acceptedFDlist : List AcceptedFD
  dispatch : DispatchPc
  sum : ℕ
  sendfdBuff : ℕ → SendFdBuff
  room : ℕ → ℕ                      -- free bytes in each socket
  written : ℕ → List UInt8          -- bytes each socket has taken
  accepted : List ℕ                 -- descriptors below `MAX_FD` that `accept` returned
  assigned : ℕ → List AcceptedFD    -- batches of each channel, in dispatch order

inductive Act
  | epollWait (evs : List Event)
  | mainStep
  | accept (ret : AcceptRet)
  | push
  | mainSend (count : ℤ)
  | mainSettle
  | detach
  | append
  | send (count : ℤ)
  | settle
  | drain (fd bytes : ℕ)

/-- The main thread's steps; the last is a worker reading from its socket, the others are
`dispatch_conn`'s. -/
def Act.IsMain : Act → Prop
  | .epollWait _ | .mainStep | .accept _ | .push | .mainSend _ | .mainSettle => True
  | _ => False

/-- Main's registration of the socketpair ends: note which callback each gets. -/
def setupItem (cfg : Config) (fd : ℕ) : FDITEM :=
  if fd = cfg.listenfd then { FDITEM.new fd with mReadfun := some .acceptReadfun }
  else if fd ∈ cfg.channels.map cfg.peer then
    { FDITEM.new fd with mWritefun := some .acceptReadfun }
  else FDITEM.new fd

def setup (cfg : Config) (room : ℕ → ℕ) : Server where
  gFDITEM := setupItem cfg
  mainEpoll := (cfg.listenfd, .inEt) :: cfg.channels.map (fun i => (cfg.peer i, .inEt))
  main := .wait
  acceptedFDlist := []
  dispatch := .wait
  sum := 0
  sendfdBuff := fun _ => .zero
  room := room
  written := fun _ => []
  accepted := []
  assigned := fun _ => []

/-- `process_event`'s loop over the reported events; main's `TIMER` stays empty. -/
def MainPc.scan : List Event → MainPc
  | [] => .wait
  | ev :: evs => .handling ⟨.read, ev, evs⟩

def SendFrame.start (s : Server) (fd : ℕ) : SendFrame :=
  ⟨fd, (s.sendfdBuff fd).needSendLen, 0, false⟩

/-- A callback called from the main thread. `accept_readfun` and `fdsend_writefun` never return a
negative number; the other functions only ever stand in the workers' items. -/
def callFromMain (s : Server) (cb : Callback) (fd : ℕ) (ret : Point) : Option Server :=
  match cb with
  | .acceptReadfun => some { s with main := .accept fd [] ret }
  | .fdsendWritefun => some { s with main := .send (SendFrame.start s fd) ret }
  | _ => none

/-- One test of `process_one_event`; the last one calls `m_closefun`, which main leaves `NULL`. -/
def mainStep (s : Server) (p : Point) : Option Server :=
  let item := s.gFDITEM p.ev.fd
  match p.stage with
  | .read =>
    let ret : Point := { p with stage := .write }
    if item.mActiveclose = false ∧ p.ev.events.epollin then
      match item.mReadfun with
      | some cb => callFromMain s cb p.ev.fd ret
      | none => some { s with main := .handling ret }
    else some { s with main := .handling ret }
  | .write =>
    let ret : Point := { p with stage := .hangup }
    if item.mActiveclose = false ∧ p.ev.events.epollout then
      match item.mWritefun with
      | some cb => callFromMain s cb p.ev.fd ret
      | none => some { s with main := .handling ret }
    else some { s with main := .handling ret }
  | .hangup =>
    -- a hang-up sets `m_activeclose`, and then `m_closefun` is called
    if item.mActiveclose ∨ p.ev.events.epollrdhup then none
    else some { s with main := .scan p.evs }

/-- One round of `accept_readfun`'s loop up to the critical section. -/
def acceptStep (s : Server) (listenfd : ℕ) (fdBuff : List ℕ) (ret : Point) :
    AcceptRet → Option Server
  | .fd newacceptfd =>
    if newacceptfd = 0 then none  -- exit(1)
    else if maxFd ≤ newacceptfd then some s  -- closed again
    else
      -- the batch is handed over when it is full, and the loop goes on with an empty one
      let batch := fdBuff ++ [newacceptfd]
      some { s with
        accepted := s.accepted ++ [newacceptfd]
        main := if batch.length < maxAcceptSize then .accept listenfd batch ret
          else .push listenfd batch true ret }
  | .error errno =>
    match errno with
    | .other _ => none  -- exit(0)
    -- these four end the loop; what was accepted before is handed over
    | _ => some { s with
        main := if fdBuff = [] then .handling ret else .push listenfd fdBuff false ret }

/-- The critical section: the new node goes in front. -/
def pushStep (s : Server) (listenfd : ℕ) (fdBuff : List ℕ) (again : Bool) (ret : Point) : Server :=
  { s with
    acceptedFDlist := AcceptedFD.ofBatch fdBuff :: s.acceptedFDlist
    main := if again then .accept listenfd [] ret else .handling ret }

/-- The loop of `sendConnectionsToWorker` goes on. -/
def SendFrame.More (f : SendFrame) : Prop := f.broke = false ∧ 0 < f.needSend-f.sended

instance (f : SendFrame) : Decidable f.More := by
  unfold SendFrame.More
  infer_instance

/-- One `send(fd, buff + sended, needSend - sended, 0)` that returned `count`. -/
def sendStep (s : Server) (f : SendFrame) (count : ℤ) : Option (Server × SendFrame) :=
  if f.More ∧ count ≤ f.needSend-f.sended ∧ (0 < count → count ≤ s.room f.fd) then
    if 0 < count then
      some ({ s with
        written := Function.update s.written f.fd
          (s.written f.fd ++ (s.sendfdBuff f.fd).slice f.sended (f.sended+count))
        room := Function.update s.room f.fd (s.room f.fd-count.toNat) },
        { f with sended := f.sended+count })
    else some (s, { f with broke := true })
  else none

/-- `sendConnectionsToWorker` after its loop. -/
def settleStep (s : Server) (f : SendFrame) : Option Server :=
  if f.More then none
  else some { s with
    sendfdBuff := Function.update s.sendfdBuff f.fd
      ((s.sendfdBuff f.fd).settle f.needSend f.sended) }

/-- `while (paccept)`. -/
def DispatchPc.loop : List AcceptedFD → DispatchPc
  | [] => .wait
  | paccept => .work paccept

def Config.channel (cfg : Config) (sum : ℕ) : ℕ := sum % (cfg.cpuNum-1)+1

/-- `dispatch_conn` appends the node to the buffer of the next channel. Without a worker the
remainder traps; an index out of range and an append past the buffer are undefined. -/
def appendStep (cfg : Config) (s : Server) (node : AcceptedFD) (rest : List AcceptedFD) :
    Option Server :=
  let channel := cfg.channel s.sum
  let workerPeerfd := cfg.peer channel
  if h : (1 < cfg.cpuNum ∧ channel < maxCpu ∧ workerPeerfd < maxCpu) ∧
      (s.sendfdBuff workerPeerfd).Fits node then
    let b := (s.sendfdBuff workerPeerfd).append node h.2
    some { s with
      sendfdBuff := Function.update s.sendfdBuff workerPeerfd b
      assigned := Function.update s.assigned channel (s.assigned channel ++ [node])
      dispatch := .send ⟨workerPeerfd, b.needSendLen, 0, false⟩ rest }
  else none

def next (cfg : Config) (s : Server) : Act → Option Server
  | .epollWait evs =>
    match s.main with
    | .wait =>
      if ∀ ev ∈ evs, ∃ r ∈ s.mainEpoll, r.1 = ev.fd ∧ r.2.Reportable ev.events then
        some { s with main := .scan evs }
      else none
    | _ => none
  | .mainStep =>
    match s.main with
    | .handling p => mainStep s p
    | _ => none
  | .accept r =>
    match s.main with
    | .accept listenfd fdBuff ret => acceptStep s listenfd fdBuff ret r
    | _ => none
  | .push =>
    match s.main with
    | .push listenfd fdBuff again ret => some (pushStep s listenfd fdBuff again ret)
    | _ => none
  | .mainSend count =>
    match s.main with
    | .send f ret => (sendStep s f count).map fun r => { r.1 with main := .send r.2 ret }
    | _ => none
  | .mainSettle =>
    match s.main with
    | .send f ret => (settleStep s f).map fun s' => { s' with main := .handling ret }
    | _ => none
  | .detach =>
    match s.dispatch, s.acceptedFDlist with
    | .wait, node :: rest => some { s with acceptedFDlist := [], dispatch := .work (node :: rest) }
    | _, _ => none
  | .append =>
    match s.dispatch with
    | .work (node :: rest) => appendStep cfg s node rest
    | _ => none
  | .send count =>
    match s.dispatch with
    | .send f rest => (sendStep s f count).map fun r => { r.1 with dispatch := .send r.2 rest }
    | _ => none
  | .settle =>
    match s.dispatch with
    | .send f rest => (settleStep s f).map fun s' =>
        { s' with sum := s'.sum+1, dispatch := .loop rest }
    | _ => none
  | .drain fd bytes =>
    some { s with room := Function.update s.room fd (s.room fd+bytes) }

end LinuxPrograms.C1000k
