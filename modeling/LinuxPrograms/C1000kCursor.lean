import LinuxPrograms.C1000kCorrespondence
import LinuxPrograms.C1000kFrame
import LinuxPrograms.LibArrays

/-! The position of a client in the data it is sent. `client_writefun` and `client_timeoutfun` share
it, `FDITEM::init` resets it, and what a client's socket takes is the data from its start on, again
and again. -/
namespace LinuxPrograms.C1000k
open Lib

/-- `senddata[i]`, as main fills the array. -/
def senddata (i : ℕ) : UInt8 := UInt8.ofNat (i % 26+97)

/-- The number of bytes `write` is asked to take, from `senddata[m_sended]` on. -/
def FDITEM.requested (p : FDITEM) : ℤ := presend-p.mSended

/-- The bytes `write` takes when it returns `len`. -/
def FDITEM.bytesTaken (p : FDITEM) (len : ℤ) : List UInt8 :=
  view (fun k => senddata (p.mSended.toNat+k)) len.toNat

/-- What `write` can return: -1, 0, or a number of bytes it was given. -/
def FDITEM.CanTake (p : FDITEM) (len : ℤ) : Prop := -1 ≤ len ∧ len ≤ p.requested

instance (p : FDITEM) (len : ℤ) : Decidable (p.CanTake len) := by
  unfold FDITEM.CanTake
  infer_instance

/-- The bytes taken go on where the stream stands. -/
theorem took_bytesTaken {p : FDITEM} {n : ℕ} {len : ℤ}
    (hsended : p.mSended = (n % presend.toNat : ℕ)) (hlen : p.CanTake len) :
    view (cyclic senddata presend.toNat) n ++ p.bytesTaken len =
      view (cyclic senddata presend.toNat) (n+len.toNat) := by
  have hpresend : presend = 500 := rfl
  have hlt : n % presend.toNat < presend.toNat := Nat.mod_lt n (by decide)
  have hle := hlen.2
  rw [FDITEM.requested] at hle
  have hstart : p.mSended.toNat = n % presend.toNat := by rw [hsended, Int.toNat_natCast]
  rw [view_cyclic_add senddata (by omega), FDITEM.bytesTaken, hstart]

section System

variable [LinearOrder VoidPtr]

structure Streams [LinearOrder VoidPtr] extends World where
  incoming : List ℕ        -- accepted, and not registered with a worker yet
  took : ℕ → List UInt8    -- what each socket has taken since it was registered

inductive StreamAct
  | accept (fd : ℕ)
  | register (w : ℕ) (timeStamp : TimeValue) (fd : ℕ)
  | writefun (fd : ℕ) (len : ℤ)
  | timeoutfun (w fd : ℕ) (tnow : TimeValue) (len : ℤ)
  | closefun (w fd : ℕ)

/-- The descriptor a step is about. -/
def StreamAct.fd : StreamAct → ℕ
  | .accept fd => fd
  | .register _ _ fd => fd
  | .writefun fd _ => fd
  | .timeoutfun _ fd _ _ => fd
  | .closefun _ fd => fd

def Streams.start (cfg : WorkerConfig) (others : ℕ → Bool) : Streams where
  toWorld := (setupWorkers cfg others).toWorld
  incoming := []
  took := fun _ => []

/-- Main accepts a descriptor, a worker registers it, or one of a client's callbacks is called: each
is called through its pointer in the item. -/
def nextStreams (s : Streams) : StreamAct → Option Streams
  | .accept fd =>
    if s.opened fd = false then
      some { s with opened := Function.update s.opened fd true, incoming := fd :: s.incoming }
    else none
  | .register w timeStamp fd =>
    if fd ∈ s.incoming then
      match registerConnection w timeStamp fd s.toWorld with
      | .ok world => some ⟨world, s.incoming.filter (· ≠ fd), Function.update s.took fd []⟩
      | .error _ => none
    else none
  | .writefun fd len =>
    if (s.gFDITEM fd).mWritefun = some .clientWritefun ∧ (s.gFDITEM fd).CanTake len then
      some { s with
        toWorld := (clientWritefun fd len s.toWorld).2
        took := Function.update s.took fd (s.took fd ++ (s.gFDITEM fd).bytesTaken len) }
    else none
  | .timeoutfun w fd tnow len =>
    if (s.gFDITEM fd).mTimeoutfun = some .clientTimeoutfun ∧ (s.gFDITEM fd).CanTake len then
      some { s with
        toWorld := clientTimeoutfun w fd tnow len s.toWorld
        took := Function.update s.took fd (s.took fd ++ (s.gFDITEM fd).bytesTaken len) }
    else none
  | .closefun w fd =>
    if (s.gFDITEM fd).mClosefun = some .clientClosefun then
      some { s with toWorld := (clientClosefun w fd s.toWorld).2 }
    else none

/-- A callback that writes to the socket may be called. -/
def Streams.Writes (s : Streams) (fd : ℕ) : Prop :=
  (s.gFDITEM fd).mWritefun = some .clientWritefun ∨
    (s.gFDITEM fd).mTimeoutfun = some .clientTimeoutfun

/-- The cursor is in range, so a write asks for some bytes of `senddata[0..presend)`; and what the
socket has taken is the start of these bytes repeated for ever. -/
structure Cyclic (s : Streams) (fd : ℕ) : Prop where
  cursor : 0 ≤ (s.gFDITEM fd).mSended ∧ (s.gFDITEM fd).mSended < presend
  atLeast : 1 ≤ (s.gFDITEM fd).requested
  inside : (s.gFDITEM fd).mSended+(s.gFDITEM fd).requested ≤ presend
  stream : s.took fd = view (cyclic senddata presend.toNat) (s.took fd).length

/-- A descriptor without a client, its cursor at the start. -/
structure Idle (s : Streams) (fd : ℕ) : Prop where
  writefun : (s.gFDITEM fd).mWritefun ≠ some .clientWritefun
  timeoutfun : (s.gFDITEM fd).mTimeoutfun = none
  sended : (s.gFDITEM fd).mSended = 0

/-- A client whose socket has taken `n` bytes. -/
structure Live (s : Streams) (fd n : ℕ) : Prop where
  opened : s.opened fd = true
  registered : fd ∉ s.incoming
  sended : (s.gFDITEM fd).mSended = (n % presend.toNat : ℕ)
  stream : s.took fd = view (cyclic senddata presend.toNat) n

def CursorOk (s : Streams) (fd : ℕ) : Prop := Idle s fd ∨ ∃ n, Live s fd n

theorem Live.cyclic {s : Streams} {fd n : ℕ} (h : Live s fd n) : Cyclic s fd := by
  have hlt : n % presend.toNat < presend.toNat := Nat.mod_lt n (by decide)
  have hpresend : presend = 500 := rfl
  have hsended := h.sended
  refine ⟨?_, ?_, ?_, ?_⟩
  · omega
  · rw [FDITEM.requested]
    omega
  · rw [FDITEM.requested]
    omega
  · rw [h.stream, view_length]

theorem CursorOk.cyclic {s : Streams} {fd : ℕ} (h : CursorOk s fd) (hw : s.Writes fd) :
    Cyclic s fd := by
  rcases h with hidle | ⟨n, hlive⟩
  · rcases hw with hwrite | htimeout
    · exact absurd hwrite hidle.writefun
    · rw [hidle.timeoutfun] at htimeout
      cases htimeout
  · exact hlive.cyclic

/-! What a step does to its own descriptor, and to the others. -/

/-- Nothing about descriptor `fd` has changed, but that it may have been registered. -/
structure Untouched (s s' : Streams) (fd : ℕ) : Prop where
  item : s'.gFDITEM fd = s.gFDITEM fd
  opened : s'.opened fd = s.opened fd
  incoming : fd ∈ s'.incoming → fd ∈ s.incoming
  took : s'.took fd = s.took fd

theorem CursorOk.untouched {s s' : Streams} {fd : ℕ} (hs : CursorOk s fd)
    (h : Untouched s s' fd) : CursorOk s' fd := by
  rcases hs with ⟨hwrite, htimeout, hsended⟩ | ⟨n, hopened, hregistered, hsended, hstream⟩
  · rw [← h.item] at hwrite htimeout hsended
    exact Or.inl ⟨hwrite, htimeout, hsended⟩
  · rw [← h.item] at hsended
    exact Or.inr ⟨n, h.opened.trans hopened, fun hmem => hregistered (h.incoming hmem), hsended,
      h.took.trans hstream⟩

theorem countSended_other {fd fd' : ℕ} (hne : fd' ≠ fd) (len : ℤ) (s : World) :
    (countSended fd len s).gFDITEM fd' = s.gFDITEM fd' :=
  (Leaves.countSended (w := 0) hne len).item

theorem countSended_opened (fd : ℕ) (len : ℤ) (s : World) :
    (countSended fd len s).opened = s.opened := by
  unfold countSended
  dsimp only
  split
  · rfl
  · split <;> rfl

theorem nextStreams_untouched {s s' : Streams} {a : StreamAct} (h : nextStreams s a = some s')
    {fd : ℕ} (hne : fd ≠ a.fd) : Untouched s s' fd := by
  cases a with
  | accept fd' =>
    simp only [nextStreams] at h
    split at h <;> cases h
    refine ⟨rfl, Function.update_of_ne hne _ _, fun hmem => ?_, rfl⟩
    exact (List.mem_cons.mp hmem).resolve_left hne
  | register w timeStamp fd' =>
    simp only [nextStreams] at h
    split at h
    · split at h <;> cases h
      next world hreg =>
        obtain ⟨-, -, -, rfl⟩ := registerConnection_eq_ok.mp hreg
        refine ⟨Function.update_of_ne hne _ _, rfl, fun hmem => List.mem_of_mem_filter hmem, ?_⟩
        exact Function.update_of_ne hne _ _
    · cases h
  | writefun fd' len =>
    simp only [nextStreams] at h
    split at h <;> cases h
    refine ⟨countSended_other hne len _, ?_, id, Function.update_of_ne hne _ _⟩
    exact congrFun (countSended_opened fd' len _) fd
  | timeoutfun w fd' tnow len =>
    simp only [nextStreams] at h
    split at h <;> cases h
    refine ⟨countSended_other hne len _, ?_, id, Function.update_of_ne hne _ _⟩
    exact congrFun (countSended_opened fd' len _) fd
  | closefun w fd' =>
    simp only [nextStreams] at h
    split at h <;> cases h
    exact ⟨Function.update_of_ne hne _ _, Function.update_of_ne hne _ _, id, rfl⟩

/-- A write moves the cursor by what it took, and back to the start behind the last byte. -/
theorem countSended_sended {s : World} {fd n : ℕ} {len : ℤ}
    (hsended : (s.gFDITEM fd).mSended = (n % presend.toNat : ℕ))
    (hlen : (s.gFDITEM fd).CanTake len) :
    ((countSended fd len s).gFDITEM fd).mSended = ((n+len.toNat) % presend.toNat : ℕ) := by
  have hpresend : presend = 500 := rfl
  have hmod : presend.toNat = 500 := rfl
  have hle := hlen.2
  rw [FDITEM.requested, hpresend] at hle
  rw [hmod] at hsended ⊢
  unfold countSended
  dsimp only
  split
  · next hzero =>
    rw [hzero]
    simp only [World.setActiveclose, World.setItem, Function.update_self]
    exact hsended
  · split
    · simp only [World.setItem, Function.update_self, hpresend]
      split <;> omega
    · have hnone : len.toNat = 0 := by omega
      rw [hnone]
      exact hsended

/-- A call of `client_writefun` or `client_timeoutfun`. -/
theorem Live.write {s s' : Streams} {fd n : ℕ} {len : ℤ} (h : Live s fd n)
    (hlen : (s.gFDITEM fd).CanTake len)
    (hitem : s'.gFDITEM = (countSended fd len s.toWorld).gFDITEM) (hopened : s'.opened = s.opened)
    (hincoming : s'.incoming = s.incoming)
    (htook : s'.took fd = s.took fd ++ (s.gFDITEM fd).bytesTaken len) :
    Live s' fd (n+len.toNat) := by
  refine ⟨?_, ?_, ?_, ?_⟩
  · rw [hopened, h.opened]
  · rw [hincoming]
    exact h.registered
  · rw [hitem, countSended_sended h.sended hlen]
  · rw [htook, h.stream, took_bytesTaken h.sended hlen]

/-- A descriptor just accepted has no client: a client's descriptor is open. -/
theorem CursorOk.idle_of_incoming {s : Streams} {fd : ℕ} (h : CursorOk s fd)
    (hmem : fd ∈ s.incoming) : Idle s fd := by
  rcases h with hidle | ⟨n, hlive⟩
  · exact hidle
  · exact absurd hmem hlive.registered

theorem CursorOk.live_of_writes {s : Streams} {fd : ℕ} (h : CursorOk s fd) (hw : s.Writes fd) :
    ∃ n, Live s fd n := by
  rcases h with hidle | hlive
  · rcases hw with hwrite | htimeout
    · exact absurd hwrite hidle.writefun
    · rw [hidle.timeoutfun] at htimeout
      cases htimeout
  · exact hlive

/-- A step keeps the cursor of its own descriptor. -/
theorem cursorOk_self {s s' : Streams} {a : StreamAct} (hs : CursorOk s a.fd)
    (h : nextStreams s a = some s') : CursorOk s' a.fd := by
  cases a with
  | accept fd =>
    simp only [nextStreams] at h
    split at h <;> cases h
    next hclosed =>
      rcases hs with hidle | ⟨n, hlive⟩
      · exact Or.inl ⟨hidle.writefun, hidle.timeoutfun, hidle.sended⟩
      · have hopened := hlive.opened
        rw [StreamAct.fd, hclosed] at hopened
        cases hopened
  | register w timeStamp fd =>
    simp only [nextStreams] at h
    split at h
    · next hmem =>
      have hidle := hs.idle_of_incoming hmem
      split at h <;> cases h
      next world hreg =>
        obtain ⟨hopened, -, -, rfl⟩ := registerConnection_eq_ok.mp hreg
        refine Or.inr ⟨0, hopened, ?_, ?_, Function.update_self _ _ _⟩
        · exact fun hin => of_decide_eq_true (List.mem_filter.mp hin).2 rfl
        · -- `process_connection` sets the callbacks only
          simp only [StreamAct.fd, Function.update_self, FDITEM.client]
          exact hidle.sended
    · cases h
  | writefun fd len =>
    simp only [nextStreams] at h
    split at h <;> cases h
    next hcall =>
      obtain ⟨n, hlive⟩ := hs.live_of_writes (Or.inl hcall.1)
      exact Or.inr ⟨_, hlive.write hcall.2 rfl (countSended_opened fd len s.toWorld) rfl
        (Function.update_self _ _ _)⟩
  | timeoutfun w fd tnow len =>
    simp only [nextStreams] at h
    split at h <;> cases h
    next hcall =>
      obtain ⟨n, hlive⟩ := hs.live_of_writes (Or.inr hcall.1)
      exact Or.inr ⟨_, hlive.write hcall.2 rfl (countSended_opened fd len s.toWorld) rfl
        (Function.update_self _ _ _)⟩
  | closefun w fd =>
    simp only [nextStreams] at h
    split at h <;> cases h
    have hinit : ((clientClosefun w fd s.toWorld).2.gFDITEM fd) = (s.gFDITEM fd).init :=
      Function.update_self _ _ _
    refine Or.inl ⟨?_, ?_, ?_⟩
    · show ((clientClosefun w fd s.toWorld).2.gFDITEM fd).mWritefun ≠ _
      rw [hinit]
      exact nofun
    · exact congrArg FDITEM.mTimeoutfun hinit
    · exact congrArg FDITEM.mSended hinit

theorem cursorOk_step {s s' : Streams} {a : StreamAct} (hs : ∀ fd, CursorOk s fd)
    (h : nextStreams s a = some s') : ∀ fd, CursorOk s' fd := by
  intro fd
  by_cases hfd : fd = a.fd
  · rw [hfd]
    exact cursorOk_self (hs a.fd) h
  · exact (hs fd).untouched (nextStreams_untouched h hfd)

theorem start_cursorOk (cfg : WorkerConfig) (others : ℕ → Bool) (fd : ℕ) :
    CursorOk (Streams.start cfg others) fd := by
  have hmain (fd : ℕ) : (setupItem cfg.toConfig fd).mWritefun ≠ some .clientWritefun ∧
      (setupItem cfg.toConfig fd).mTimeoutfun = none ∧
      (setupItem cfg.toConfig fd).mSended = 0 := by
    unfold setupItem
    split
    · exact ⟨nofun, rfl, rfl⟩
    · split <;> exact ⟨nofun, rfl, rfl⟩
  obtain ⟨hwrite, htimeout, hsended⟩ := hmain fd
  have hworker : ((Streams.start cfg others).gFDITEM fd).mWritefun =
        (setupItem cfg.toConfig fd).mWritefun ∧
      ((Streams.start cfg others).gFDITEM fd).mTimeoutfun =
        (setupItem cfg.toConfig fd).mTimeoutfun ∧
      ((Streams.start cfg others).gFDITEM fd).mSended = (setupItem cfg.toConfig fd).mSended := by
    simp only [Streams.start, setupWorkers, setupWorkerItem]
    split <;> exact ⟨rfl, rfl, rfl⟩
  obtain ⟨hwrite', htimeout', hsended'⟩ := hworker
  exact Or.inl ⟨hwrite' ▸ hwrite, htimeout'.trans htimeout, hsended'.trans hsended⟩

/-- In every run, whenever a callback may write to a socket, the cursor is a position in the data,
and what the socket has taken since it was registered is the data repeated from its first byte. -/
theorem send_cursor_cyclic {cfg : WorkerConfig} {others : ℕ → Bool}
    {tr : List (Streams × StreamAct)} {s : Streams}
    (h : Run nextStreams (.start cfg others) tr s) :
    Throughout (fun s => ∀ fd, s.Writes fd → Cyclic s fd) tr s := by
  have hinv : Throughout (fun s => ∀ fd, CursorOk s fd) tr s :=
    h.throughout_of_steps (C := fun _ _ => True) (fun _ _ _ hs _ hstep => cursorOk_step hs hstep)
      (fun _ _ => trivial) (start_cursorOk cfg others)
  exact hinv.mono fun _ hs fd hw => (hs fd).cyclic hw

end System

section TwoLifetimes

attribute [local instance] VoidPtr.order

/-- A client takes the data once and the start of it again, is closed, and its descriptor is given
to the next client. -/
def twoLifetimes : List StreamAct :=
  [.accept 10, .register 1 0 10, .writefun 10 300, .timeoutfun 1 10 10000 200, .writefun 10 7,
    .closefun 1 10, .accept 10, .register 1 10000 10]

theorem send_cursor_cyclic_two_lifetimes :
    ∃ s, exec nextStreams (.start twoCpusWorkers fun _ => false) twoLifetimes = some s ∧
      s.took 10 = [] ∧ Cyclic s 10 := by
  have hexec : exec nextStreams (.start twoCpusWorkers fun _ => false) twoLifetimes = some _ := rfl
  exact ⟨_, hexec, rfl, (send_cursor_cyclic (Run.of_exec hexec)).2 10 (Or.inl rfl)⟩

end TwoLifetimes

end LinuxPrograms.C1000k
