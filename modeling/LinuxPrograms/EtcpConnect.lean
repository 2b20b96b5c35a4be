import LinuxPrograms.EtcpPassiveSocket

/-! `inetConnect` (etcp.c): a socket for the first address that can be connected to, and no other
descriptor left open. -/
namespace LinuxPrograms.Etcp
open Lib

/-- An address, and what `socket` and `connect` set `errno` to for it when they fail. -/
structure Target extends Addrinfo where
  socketErr : Option ℤ
  connectErr : Option ℤ

/-- The process, what its sockets are connected to, and `errno`. -/
structure Caller where
  process : Process
  peer : ℕ → Option (List UInt8)
  errno : ℤ

def ENOSYS : ℤ := 38

/-- The loop over the addresses: the socket it breaks with, if `rp` is not `NULL`. -/
def connectWalk : Caller → List Target → Option ℕ × Caller
  | c, [] => (none, c)
  | c, rp :: rest =>
    match rp.socketErr with
    | some err => connectWalk { c with errno := err } rest
    | none =>
      let s := c.process.socket rp.toAddrinfo
      match rp.connectErr with
      | none =>
        (some s.1, { c with process := s.2, peer := Function.update c.peer s.1 (some rp.addr) })
      | some err => connectWalk { c with process := s.2.close s.1, errno := err } rest

/-- `inetConnect(host, service, type)`; `getaddrinfo` gives no list when it fails. -/
def inetConnect (getaddrinfo : List UInt8 → List UInt8 → Hints → Option (List Target))
    (host service : List UInt8) (type : ℤ) (c : Caller) : ℤ × Caller :=
  match getaddrinfo host service ⟨AF_UNSPEC, type, 0⟩ with
  | none => (-1, { c with errno := ENOSYS })
  | some result =>
    let w := connectWalk { c with process := { c.process with lists := c.process.lists+1 } } result
    let freed := { w.2 with process := w.2.process.freeaddrinfo }
    match w.1 with
    | none => (-1, freed)
    | some sfd => (sfd, freed)

def Target.connects (rp : Target) : Bool := rp.socketErr.isNone && rp.connectErr.isNone

/-- What `errno` is after an address was tried in vain. -/
def Target.err (rp : Target) (errno : ℤ) : ℤ :=
  match rp.socketErr with
  | some err => err
  | none => rp.connectErr.getD errno

/-- The lowest free descriptor is a socket of the address, connected to it; nothing else has
changed, but `errno`. -/
structure Connected (c : Caller) (rp : Target) (sfd : ℕ) (c' : Caller) : Prop where
  lowest : sfd = lowestFree c.process.fds
  opened : Opened c.process sfd c'.process
  sock : c'.process.sock sfd = ⟨rp.family, rp.socktype, rp.protocol, false, none, none⟩
  peer : c'.peer = Function.update c.peer sfd (some rp.addr)
  lists : c'.process.lists = c.process.lists

/-- No descriptor was left open, and `errno` tells of the last address. -/
structure Failed (c : Caller) (tried : List Target) (c' : Caller) : Prop where
  process : Unchanged c.process c'.process
  peer : c'.peer = c.peer
  lists : c'.process.lists = c.process.lists
  errno : c'.errno = tried.foldl (fun errno rp => rp.err errno) c.errno

/-- How the loop ends, when `rp` is the first address that can be connected to. -/
def EndsConnected (c : Caller) (tried : List Target) : Option Target → Option ℕ × Caller → Prop
  | some rp, w => ∃ sfd, w.1 = some sfd ∧ Connected c rp sfd w.2
  | none, w => w.1 = none ∧ Failed c tried w.2

/-- The same after one more address was tried in vain. -/
theorem EndsConnected.retry {c c₁ : Caller} {rp : Target} {tried : List Target}
    {first : Option Target} {w : Option ℕ × Caller} (h : EndsConnected c₁ tried first w)
    (hprocess : Unchanged c.process c₁.process) (hpeer : c₁.peer = c.peer)
    (hlists : c₁.process.lists = c.process.lists) (herrno : c₁.errno = rp.err c.errno) :
    EndsConnected c (rp :: tried) first w := by
  cases first with
  | some found =>
    obtain ⟨sfd, hw, hc⟩ := h
    refine ⟨sfd, hw, ?_, hprocess.opened hc.opened, hc.sock, ?_, hc.lists.trans hlists⟩
    · rw [← hprocess.fds]
      exact hc.lowest
    · rw [← hpeer]
      exact hc.peer
  | none =>
    obtain ⟨hw, hf⟩ := h
    refine ⟨hw, hprocess.trans hf.process, hf.peer.trans hpeer, hf.lists.trans hlists, ?_⟩
    rw [List.foldl_cons, ← herrno]
    exact hf.errno

theorem connectWalk_ends (c : Caller) (targets : List Target) :
    EndsConnected c targets (targets.find? Target.connects) (connectWalk c targets) := by
  induction targets generalizing c with
  | nil => exact ⟨rfl, ⟨rfl, fun _ _ => rfl⟩, rfl, rfl, rfl⟩
  | cons rp rest ih =>
    unfold connectWalk
    cases hsocket : rp.socketErr with
    | some err =>
      have hconnects : ¬rp.connects = true := by
        rw [Target.connects, hsocket]
        exact Bool.false_ne_true
      rw [List.find?_cons_of_neg hconnects]
      have hrest := ih { c with errno := err }
      refine hrest.retry ⟨rfl, fun _ _ => rfl⟩ rfl rfl ?_
      rw [Target.err, hsocket]
    | none =>
      have hopened := socket_opened c.process rp.toAddrinfo
      dsimp only
      cases hconnect : rp.connectErr with
      | some err =>
        -- the descriptor is closed, and the next address is tried
        have hconnects : ¬rp.connects = true := by
          rw [Target.connects, hsocket, hconnect]
          exact Bool.false_ne_true
        rw [List.find?_cons_of_neg hconnects]
        have hrest := ih { c with
          process := (c.process.socket rp.toAddrinfo).2.close (c.process.socket rp.toAddrinfo).1
          errno := err }
        refine hrest.retry hopened.close rfl rfl ?_
        rw [Target.err, hsocket, hconnect]
        rfl
      | none =>
        have hconnects : rp.connects = true := by
          rw [Target.connects, hsocket, hconnect]
          rfl
        rw [List.find?_cons_of_pos hconnects]
        exact ⟨_, rfl, rfl, hopened, Function.update_self _ _ _, rfl, rfl⟩

/-- `inetConnect` returns a new descriptor, the lowest that is free, connected to the first address
for which both calls succeed. When there is none, or no address, it returns -1. Either way no other
descriptor is open afterwards, no list of addresses is left, and `errno` of a failure is that of the
last address, or `ENOSYS`. -/
theorem inetConnect_first (getaddrinfo : List UInt8 → List UInt8 → Hints → Option (List Target))
    (host service : List UInt8) (type : ℤ) (c : Caller) :
    match getaddrinfo host service ⟨AF_UNSPEC, type, 0⟩ with
    | none => inetConnect getaddrinfo host service type c = (-1, { c with errno := ENOSYS })
    | some result =>
      match result.find? Target.connects with
      | some rp => ∃ sfd : ℕ, (inetConnect getaddrinfo host service type c).1 = sfd ∧
          Connected c rp sfd (inetConnect getaddrinfo host service type c).2
      | none => (inetConnect getaddrinfo host service type c).1 = -1 ∧
          Failed c result (inetConnect getaddrinfo host service type c).2 := by
  cases hinfo : getaddrinfo host service ⟨AF_UNSPEC, type, 0⟩ with
  | none =>
    dsimp only
    rw [inetConnect, hinfo]
  | some result =>
    have hends := connectWalk_ends
      { c with process := { c.process with lists := c.process.lists+1 } } result
    dsimp only
    rw [inetConnect, hinfo]
    dsimp only
    cases hfirst : result.find? Target.connects with
    | some rp =>
      rw [hfirst] at hends
      obtain ⟨sfd, hw, hc⟩ := hends
      rw [hw]
      refine ⟨sfd, rfl, hc.lowest, ⟨hc.opened.fresh, hc.opened.fds, hc.opened.sock⟩, hc.sock,
        hc.peer, ?_⟩
      exact congrArg (· - 1) hc.lists
    | none =>
      rw [hfirst] at hends
      obtain ⟨hw, hf⟩ := hends
      rw [hw]
      exact ⟨rfl, ⟨hf.process.fds, hf.process.sock⟩, hf.peer, congrArg (· - 1) hf.lists, hf.errno⟩

end LinuxPrograms.Etcp
