import LinuxPrograms.C1000kWorker
import LinuxPrograms.LibRuns

/-! The workers of the c1000k server as one system: each worker goes through the rounds of
`process_event` over its own epoll set and `TIMER`, all share `gFDITEM`, and the kernel opens
descriptors again once they are closed. -/
namespace LinuxPrograms.C1000k
open Lib

/-- The other ends of the socketpairs. -/
structure WorkerConfig extends Config where
  orderfd : ℕ → ℕ  -- `sockfdpair[i][1]`
  orderfd_inj : ∀ i j, 1 ≤ i → i < cpuNum → 1 ≤ j → j < cpuNum → orderfd i = orderfd j → i = j
  orderfd_ne_listenfd : ∀ i, 1 ≤ i → i < cpuNum → orderfd i ≠ listenfd
  orderfd_ne_peer : ∀ i j, 1 ≤ i → i < cpuNum → 1 ≤ j → j < cpuNum → orderfd i ≠ peer j

/-- Where a worker is in `process_event`. -/
inductive WorkerPc
  | idle
  | batch (evs : List Event)
  | timed (timeStamp : TimeValue)

section System

variable [LinearOrder VoidPtr]

structure Workers [LinearOrder VoidPtr] extends World where
  pc : ℕ → WorkerPc

inductive WorkerAct
  | epollWait (w : ℕ) (evs : List Event)
  | event (w : ℕ) (io : Io)
  | time (w : ℕ) (timeStamp : TimeValue)
  | timer (w : ℕ) (len : ℤ)
  | openFd (fd : ℕ)

/-- The items after main and every worker have registered their sockets. -/
def setupWorkerItem (cfg : WorkerConfig) (fd : ℕ) : FDITEM :=
  if fd ∈ cfg.channels.map cfg.orderfd then
    { setupItem cfg.toConfig fd with mReadfun := some .readfunGetConnections }
  else setupItem cfg.toConfig fd

/-- Every worker before its first `process_event`; `others` are the other open descriptors. -/
def setupWorkers (cfg : WorkerConfig) (others : ℕ → Bool) : Workers where
  gFDITEM := setupWorkerItem cfg
  opened := fun fd => others fd || decide (fd ∈ cfg.channels.map cfg.orderfd)
  interest := fun w => if w ∈ cfg.channels then [cfg.orderfd w] else []
  timer := fun _ => .empty
  pc := fun _ => .idle

def Workers.goto (s : Workers) (w : ℕ) (pc : WorkerPc) : Workers :=
  { s with pc := Function.update s.pc w pc }

/-- A step of the system, or why there is none. `epoll_wait` reports registered descriptors, each
once; the events it reports are arbitrary. -/
def stepWorkers (s : Workers) : WorkerAct → Except Stop Workers
  | .epollWait w evs =>
    match s.pc w with
    | .idle =>
      if (evs.map (·.fd)).Nodup ∧ ∀ ev ∈ evs, ev.fd ∈ s.interest w then
        .ok (s.goto w (.batch evs))
      else .error .notEnabled
    | _ => .error .notEnabled
  | .event w io =>
    match s.pc w with
    | .batch (ev :: evs) =>
      match processOneEvent w io ev s.toWorld with
      | .ok world => .ok ({ s with toWorld := world }.goto w (.batch evs))
      | .error e => .error e
    | _ => .error .notEnabled
  | .time w timeStamp =>
    match s.pc w with
    | .batch [] => .ok (s.goto w (.timed timeStamp))
    | _ => .error .notEnabled
  | .timer w len =>
    match s.pc w with
    | .timed timeStamp =>
      match timedTask w timeStamp len s.toWorld with
      | .ok (some world) => .ok { s with toWorld := world }
      | .ok none => .ok (s.goto w .idle)
      | .error e => .error e
    | _ => .error .notEnabled
  | .openFd fd =>
    if s.opened fd = false then .ok { s with opened := Function.update s.opened fd true }
    else .error .notEnabled

def nextWorkers (s : Workers) (a : WorkerAct) : Option Workers := (stepWorkers s a).toOption

/-- Every descriptor decoded in the step is open and registered with no worker. (An event of a
client reads nothing of `recvs`.) -/
def HandedOver (s : Workers) : WorkerAct → Prop
  | .event _ io => ∀ fd ∈ decodeInts (received io.recvs),
      s.opened fd = true ∧ ∀ w, fd ∉ s.interest w
  | _ => True

/-- The clients registered with worker `w` and not closed. -/
def World.clients (cfg : WorkerConfig) (s : World) (w : ℕ) : List ℕ :=
  (s.interest w).filter (· ≠ cfg.orderfd w)

end System

end LinuxPrograms.C1000k
