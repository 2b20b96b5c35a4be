import LinuxPrograms.C1000kListenfd

/-! The worker side of the c1000k server (worker.cc, process_event.cc): the callbacks of clients
and of the socketpair ends, `process_one_event`, and the workers' loops over one `gFDITEM`.
A step is one `epoll_wait`, one `process_one_event`, or one round of the loop over the timers of
one worker. What a system call answered is part of the step's label. -/
namespace LinuxPrograms.C1000k
open Lib

/-- The addresses a worker's `TIMER` is given: `gFDITEM[fd]` and `&gFDITEM[fd]`. -/
inductive VoidPtr
  | item (fd : ℕ)
  | cell (fd : ℕ)

/-- One order the addresses can have. -/
@[reducible] def VoidPtr.order : LinearOrder VoidPtr :=
  LinearOrder.lift' (fun | .item fd => 2*fd | .cell fd => 2*fd+1) (by
    rintro (a | a) (b | b) h <;> simp only at h
    · exact congrArg VoidPtr.item (by omega)
    · omega
    · omega
    · exact congrArg VoidPtr.cell (by omega))

/-- Why a step has no next state. -/
inductive Stop
  | assertFalse
  | exit
  | nullClosefun
  | nullTimeoutfun
  | undefined   -- an index or a pointer out of range
  | notEnabled  -- the thread is elsewhere, or the kernel does not answer so
deriving DecidableEq

theorem bind_eq_ok {α β : Type} {x : Except Stop α} {f : α → Except Stop β} {b : β} :
    (x >>= f) = .ok b ↔ ∃ a, x = .ok a ∧ f a = .ok b := by
  cases x with
  | error e => exact ⟨nofun, fun ⟨_, h, _⟩ => nomatch h⟩
  | ok a => exact ⟨fun h => ⟨a, rfl, h⟩, fun ⟨_, h, hf⟩ => Except.ok.inj h ▸ hf⟩

theorem map_eq_ok {α β : Type} {x : Except Stop α} {f : α → β} {b : β} :
    x.map f = .ok b ↔ ∃ a, x = .ok a ∧ f a = b := by
  cases x with
  | error e => exact ⟨nofun, fun ⟨_, h, _⟩ => nomatch h⟩
  | ok a => exact ⟨fun h => ⟨a, rfl, Except.ok.inj h⟩, fun ⟨_, h, hf⟩ => Except.ok.inj h ▸ hf ▸ rfl⟩

theorem ite_error_eq_ok {α : Type*} {p : Prop} [Decidable p] {e : Stop} {x : Except Stop α}
    {a : α} : (if p then .error e else x) = .ok a ↔ ¬ p ∧ x = .ok a := by
  by_cases hp : p
  · rw [if_pos hp]
    exact ⟨nofun, fun h => absurd hp h.1⟩
  · rw [if_neg hp]
    exact (and_iff_right hp).symm

/-- What `recv` returned other than -1 with `EAGAIN`: bytes, with the time at each round of
`process_connection` that follows, or 0 or another error. -/
inductive RecvRet
  | data (bytes : List UInt8) (now : ℕ → TimeValue)
  | other

/-- The bytes of the reads, up to the first that returned none. -/
def received : List RecvRet → List UInt8
  | [] => []
  | .data bytes _ :: recvs => bytes ++ received recvs
  | .other :: _ => []

section Decoder

variable {σ : Type*} (register : TimeValue → ℕ → σ → Except Stop σ)

/-- `process_connection` from its round `k` on, over the unprocessed bytes of the buffer; it
returns the bytes it leaves. -/
def processConnection (now : ℕ → TimeValue) :
    ℕ → List UInt8 → σ → Except Stop (σ × List UInt8)
  | k, b₀ :: b₁ :: b₂ :: b₃ :: buffer, s =>
    match register (now k) (leNat [b₀, b₁, b₂, b₃]) s with
    | .ok s' => processConnection now (k+1) buffer s'
    | .error e => .error e
  | _, buffer, s => .ok (s, buffer)

/-- The loop of `readfun_getConnections`; the bytes received so far and not processed are
`buffer`. After the last of `recvs` the answer is `EAGAIN`. -/
def recvLoop : List RecvRet → List UInt8 → σ → Except Stop σ
  | [], _, s => .ok s
  | .other :: _, _, _ => .error .assertFalse
  | .data bytes now :: recvs, buffer, s =>
    if bytes = [] ∨ 10*1024-buffer.length < bytes.length then .error .notEnabled
    else if 4 ≤ (buffer ++ bytes).length then
      match processConnection register now 0 (buffer ++ bytes) s with
      | .ok (s', buffer') => recvLoop recvs buffer' s'
      | .error e => .error e
    else .error .assertFalse

/-- `buffer` and `received` are locals: each call starts with an empty buffer. -/
def readfunGetConnections (recvs : List RecvRet) (s : σ) : Except Stop σ :=
  recvLoop register recvs [] s

/-- The descriptors are registered in order, at whatever times. -/
def RegistersAll : List ℕ → σ → σ → Prop
  | [], s, s' => s' = s
  | fd :: fds, s, s' => ∃ t s₁, register t fd s = .ok s₁ ∧ RegistersAll fds s₁ s'

variable {register}

theorem RegistersAll.append {fds fds' : List ℕ} {s t u : σ} (h : RegistersAll register fds s t)
    (h' : RegistersAll register fds' t u) : RegistersAll register (fds ++ fds') s u := by
  induction fds generalizing s with
  | nil =>
    cases h
    exact h'
  | cons fd fds ih =>
    obtain ⟨now, s₁, hreg, h⟩ := h
    exact ⟨now, s₁, hreg, ih h⟩

/-- A list that each registration extends by its descriptor is extended by all of them. -/
theorem RegistersAll.appends {f : σ → List ℕ}
    (hone : ∀ t fd s s', register t fd s = .ok s' → f s' = f s ++ [fd]) {fds : List ℕ} {s s' : σ}
    (h : RegistersAll register fds s s') : f s' = f s ++ fds := by
  induction fds generalizing s with
  | nil =>
    cases h
    exact (List.append_nil _).symm
  | cons fd fds ih =>
    obtain ⟨t, s₁, hreg, hrest⟩ := h
    rw [ih hrest, hone t fd s s₁ hreg, List.append_assoc, List.singleton_append]

theorem length_lt_four {l : List UInt8}
    (h : ∀ b₀ b₁ b₂ b₃ rest, l = b₀ :: b₁ :: b₂ :: b₃ :: rest → False) : l.length < 4 := by
  match l, h with
  | [], _ | [_], _ | [_, _], _ | [_, _, _], _ => simp
  | b₀ :: b₁ :: b₂ :: b₃ :: rest, h => exact (h _ _ _ _ _ rfl).elim

/-- `process_connection` registers the complete descriptors of the buffer and leaves the rest. -/
theorem processConnection_ok {now : ℕ → TimeValue} {k : ℕ} {buffer rest : List UInt8} {s s' : σ}
    (h : processConnection register now k buffer s = .ok (s', rest)) :
    RegistersAll register (decodeInts buffer) s s' ∧ rest = leftover 4 buffer := by
  fun_induction processConnection register now k buffer s with
  | case1 k b₀ b₁ b₂ b₃ buffer s s₁ hreg ih =>
    obtain ⟨hall, hrest⟩ := ih h
    rw [decodeInts_cons, leftover_cons]
    exact ⟨⟨now k, s₁, hreg, hall⟩, hrest⟩
  | case2 k b₀ b₁ b₂ b₃ buffer s e hreg => cases h
  | case3 k buffer s hshort =>
    cases h
    have hlt := length_lt_four hshort
    rw [decodeInts_of_lt hlt, leftover_of_lt hlt]
    exact ⟨rfl, rfl⟩

/-- A call of `readfun_getConnections` registers the complete descriptors among the bytes it
received. -/
theorem recvLoop_ok {recvs : List RecvRet} {buffer : List UInt8} {s s' : σ}
    (hb : buffer.length < 4) (h : recvLoop register recvs buffer s = .ok s') :
    RegistersAll register (decodeInts (buffer ++ received recvs)) s s' := by
  fun_induction recvLoop register recvs buffer s with
  | case1 buffer s =>
    cases h
    rw [received, List.append_nil, decodeInts_of_lt hb]
    rfl
  | case2 => cases h
  | case3 => cases h
  | case4 bytes now recvs buffer s hsome hlen s₁ buffer' hproc ih =>
    obtain ⟨hall, rfl⟩ := processConnection_ok hproc
    have hlt : (leftover 4 (buffer ++ bytes)).length < 4 := by
      rw [leftover_length]
      omega
    rw [received, ← List.append_assoc, decodeInts_append]
    exact hall.append (ih hlt h)
  | case5 => cases h
  | case6 => cases h

end Decoder

section Callbacks

variable [LinearOrder VoidPtr]

/-- What the workers share, and each worker's epoll set and `TIMER`. A client is registered for
`EPOLLIN | EPOLLET`. -/
structure World [LinearOrder VoidPtr] where
  gFDITEM : ℕ → FDITEM
  opened : ℕ → Bool
  interest : ℕ → List ℕ
  timer : ℕ → TIMER VoidPtr

def World.setItem (s : World) (fd : ℕ) (p : FDITEM) : World :=
  { s with gFDITEM := Function.update s.gFDITEM fd p }

def World.setTimer (s : World) (w : ℕ) (T : TIMER VoidPtr) : World :=
  { s with timer := Function.update s.timer w T }

def World.setActiveclose (s : World) (fd : ℕ) : World :=
  s.setItem fd { s.gFDITEM fd with mActiveclose := true }

/-- The item of a client. -/
def FDITEM.client (p : FDITEM) : FDITEM :=
  { p with
    mReadfun := some .clientReadfun
    mWritefun := some .clientWritefun
    mClosefun := some .clientClosefun
    mTimeoutfun := some .clientTimeoutfun }

/-- What `process_connection` does with one descriptor. `set_noblock` fails on a closed one, and
`epoll_ctl` on a registered one. -/
def registerConnection (w : ℕ) (timeStamp : TimeValue) (fd : ℕ) (s : World) : Except Stop World :=
  if s.opened fd = false then .error .exit
  else if maxFd ≤ fd then .error .undefined
  else if fd ∈ s.interest w then .error .exit
  else .ok { s with
    gFDITEM := Function.update s.gFDITEM fd (s.gFDITEM fd).client
    interest := Function.update s.interest w (s.interest w ++ [fd])
    timer := Function.update s.timer w
      ((s.timer w).addTimer (.item fd) (timeStamp+10*1000)) }

theorem registerConnection_eq_ok {w : ℕ} {timeStamp : TimeValue} {fd : ℕ} {s s' : World} :
    registerConnection w timeStamp fd s = .ok s' ↔
      s.opened fd = true ∧ fd < maxFd ∧ fd ∉ s.interest w ∧
        s' = { s with
          gFDITEM := Function.update s.gFDITEM fd (s.gFDITEM fd).client
          interest := Function.update s.interest w (s.interest w ++ [fd])
          timer := Function.update s.timer w
            ((s.timer w).addTimer (.item fd) (timeStamp+10*1000)) } := by
  unfold registerConnection
  rw [ite_error_eq_ok, ite_error_eq_ok, ite_error_eq_ok, Bool.not_eq_false, not_le,
    Except.ok.injEq, eq_comm (b := s')]

/-- The answers of the system calls made while one event is processed: `recv` on the socketpair,
`read` and `write` on a client. After the last of `reads` the answer is -1. -/
structure Io where
  recvs : List RecvRet
  reads : List ℤ
  write : ℤ

def clientReadfun (fd : ℕ) : List ℤ → World → ℤ × World
  | [], s => (1, s)
  | len :: reads, s =>
    if len = -1 then (1, s)
    else if len = 0 then (-1, s.setActiveclose fd)
    else clientReadfun fd reads s

def presend : ℤ := 500

/-- What `client_writefun` and `client_timeoutfun` do with the result of `write`. -/
def countSended (fd : ℕ) (len : ℤ) (s : World) : World :=
  let p := s.gFDITEM fd
  if len = 0 then s.setActiveclose fd
  else if 0 < len then
    s.setItem fd { p with mSended := if p.mSended+len = presend then 0 else p.mSended+len }
  else s

def clientWritefun (fd : ℕ) (len : ℤ) (s : World) : ℤ × World := (1, countSended fd len s)

/-- `close` also takes the descriptor out of every epoll set. -/
def World.close (s : World) (fd : ℕ) : World :=
  { s with
    opened := Function.update s.opened fd false
    interest := fun w => (s.interest w).filter (· ≠ fd) }

def clientClosefun (w fd : ℕ) (s : World) : ℤ × World :=
  let s₁ := s.setTimer w ((s.timer w).removeTimer (.item fd))
  let s₂ := s₁.setItem fd (s₁.gFDITEM fd).init
  (1, s₂.close fd)

def clientTimeoutfun (w fd : ℕ) (tnow : TimeValue) (len : ℤ) (s : World) : World :=
  let s₁ := countSended fd len s
  s₁.setTimer w ((s₁.timer w).addTimer (.item fd) (tnow+10*1000))

/-- A callback called from worker `w`. Main's callbacks never stand in an item it has. -/
def callFromWorker (w : ℕ) (io : Io) (cb : Callback) (fd : ℕ) (s : World) :
    Except Stop (ℤ × World) :=
  match cb with
  | .readfunGetConnections =>
    (readfunGetConnections (registerConnection w) io.recvs s).map fun s' => (1, s')
  | .clientReadfun => .ok (clientReadfun fd io.reads s)
  | .clientWritefun => .ok (clientWritefun fd io.write s)
  | .clientClosefun => .ok (clientClosefun w fd s)
  | .acceptReadfun | .fdsendWritefun => .error .notEnabled

/-- The read and the write test of `process_one_event`. -/
def callStage (w : ℕ) (io : Io) (fun? : FDITEM → Option Callback) (reported : Bool) (fd : ℕ)
    (s : World) : Except Stop World :=
  if (s.gFDITEM fd).mActiveclose = false ∧ reported then
    match fun? (s.gFDITEM fd) with
    | some cb =>
      match callFromWorker w io cb fd s with
      | .ok (r, s') => .ok (if r < 0 then s'.setActiveclose fd else s')
      | .error e => .error e
    | none => .ok s
  else .ok s

/-- The third test of `process_one_event`. -/
def hangupStage (ev : Event) (s : World) : World :=
  if (s.gFDITEM ev.fd).mActiveclose = false ∧ ev.events.epollrdhup then s.setActiveclose ev.fd
  else s

/-- The end of `process_one_event`; the address it removes from the timers is a cell's. -/
def closeStage (w : ℕ) (io : Io) (fd : ℕ) (s : World) : Except Stop World :=
  if (s.gFDITEM fd).mActiveclose then
    let s₁ := s.setTimer w ((s.timer w).removeTimer (.cell fd))
    match (s₁.gFDITEM fd).mClosefun with
    | some cb => (callFromWorker w io cb fd s₁).map (·.2)
    | none => .error .nullClosefun
  else .ok s

def processOneEvent (w : ℕ) (io : Io) (ev : Event) (s : World) : Except Stop World := do
  let s₁ ← callStage w io (·.mReadfun) ev.events.epollin ev.fd s
  let s₂ ← callStage w io (·.mWritefun) ev.events.epollout ev.fd s₁
  closeStage w io ev.fd (hangupStage ev s₂)

/-- One round of the loop over the timers; `none` when the loop ends. -/
def timedTask (w : ℕ) (timeStamp : TimeValue) (len : ℤ) (s : World) :
    Except Stop (Option World) :=
  match (s.timer w).getTimer timeStamp with
  | none => .error .assertFalse
  | some (none, _) => .ok none
  | some (some (.item i), T) =>
    let p := s.gFDITEM i
    match p.mTimeoutfun with
    | some .clientTimeoutfun => .ok (some (clientTimeoutfun w p.fd timeStamp len (s.setTimer w T)))
    | none => .error .nullTimeoutfun
  | some (some (.cell _), _) => .error .undefined

end Callbacks

end LinuxPrograms.C1000k
