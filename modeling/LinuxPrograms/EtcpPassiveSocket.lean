import LinuxPrograms.LibLowest
import Mathlib.Logic.Function.Basic

/-! `inetPassiveSocket` (etcp.c), which `inetListen` and `inetBind` call: the sockets it opens, and
which of them it closes again. -/
namespace LinuxPrograms.Etcp
open Lib

/-- `struct addrinfo`. -/
structure Addrinfo where
  family : ℤ
  socktype : ℤ
  protocol : ℤ
  addr : List UInt8
  addrlen : ℕ

/-- An address, and whether each call for it succeeds. -/
structure Candidate extends Addrinfo where
  socketOk : Bool
  setsockoptOk : Bool
  bindOk : Bool
  listenOk : Bool

/-- What the fields of `hints` are set to. -/
structure Hints where
  family : ℤ
  socktype : ℤ
  flags : ℤ

def AF_UNSPEC : ℤ := 0
def SOCK_STREAM : ℤ := 1
def AI_PASSIVE : ℤ := 1

/-- What a descriptor stands for. -/
structure Sock where
  family : ℤ
  socktype : ℤ
  protocol : ℤ
  reuseaddr : Bool
  bound : Option (List UInt8)
  listening : Option ℤ

/-- The descriptors that are open, what they stand for, and how many lists of addresses are
allocated. -/
structure Process where
  fds : Finset ℕ
  sock : ℕ → Sock
  lists : ℕ

/-- `socket(ai_family, ai_socktype, ai_protocol)` when it succeeds: the lowest free descriptor. -/
def Process.socket (p : Process) (ai : Addrinfo) : ℕ × Process :=
  let sfd := lowestFree p.fds
  (sfd, { p with
    fds := insert sfd p.fds
    sock := Function.update p.sock sfd
      ⟨ai.family, ai.socktype, ai.protocol, false, none, none⟩ })

/-- `setsockopt(sfd, SOL_SOCKET, SO_REUSEADDR, &optval, sizeof(optval))`. -/
def Process.setReuseaddr (p : Process) (sfd : ℕ) : Process :=
  { p with sock := Function.update p.sock sfd { p.sock sfd with reuseaddr := true } }

/-- `bind(sfd, ai_addr, ai_addrlen)`. -/
def Process.bind (p : Process) (sfd : ℕ) (addr : List UInt8) : Process :=
  { p with sock := Function.update p.sock sfd { p.sock sfd with bound := some addr } }

/-- `listen(sfd, backlog)`. -/
def Process.listen (p : Process) (sfd : ℕ) (backlog : ℤ) : Process :=
  { p with sock := Function.update p.sock sfd { p.sock sfd with listening := some backlog } }

def Process.close (p : Process) (sfd : ℕ) : Process := { p with fds := p.fds.erase sfd }

def Process.freeaddrinfo (p : Process) : Process := { p with lists := p.lists-1 }

/-- How the loop ends: it returns -1, it breaks with a bound socket, or `rp` is `NULL`. -/
inductive Walk
  | failed
  | bound (rp : Candidate) (sfd : ℕ)
  | exhausted

/-- The loop over the addresses. -/
def walk (doListen : Bool) : Process → List Candidate → Walk × Process
  | p, [] => (.exhausted, p)
  | p, rp :: rest =>
    if rp.socketOk then
      let s := p.socket rp.toAddrinfo
      if doListen && !rp.setsockoptOk then (.failed, (s.2.close s.1).freeaddrinfo)
      else
        let q := if doListen then s.2.setReuseaddr s.1 else s.2
        if rp.bindOk then (.bound rp s.1, q.bind s.1 rp.addr)
        else walk doListen (q.close s.1) rest
    else walk doListen p rest

/-- What `inetPassiveSocket` returned, `*addrlen`, which is not there when `addrlen` is `NULL`, and
the process afterwards. -/
structure Passive where
  rc : ℤ
  addrlen : Option ℕ
  process : Process

/-- `inetPassiveSocket(service, type, addrlen, doListen, backlog)`; `getaddrinfo` gives no list when
it fails. -/
def inetPassiveSocket (getaddrinfo : List UInt8 → Hints → Option (List Candidate))
    (service : List UInt8) (type : ℤ) (addrlen : Option ℕ) (doListen : Bool) (backlog : ℤ)
    (p : Process) : Passive :=
  match getaddrinfo service ⟨AF_UNSPEC, type, AI_PASSIVE⟩ with
  | none => ⟨-1, addrlen, p⟩
  | some result =>
    match walk doListen { p with lists := p.lists+1 } result with
    | (.failed, q) => ⟨-1, addrlen, q⟩
    | (.bound rp sfd, q) =>
      if doListen && !rp.listenOk then ⟨-1, addrlen, q.freeaddrinfo⟩
      else
        let q := if doListen then q.listen sfd backlog else q
        ⟨sfd, addrlen.map fun _ => rp.addrlen, q.freeaddrinfo⟩
    | (.exhausted, q) => ⟨-1, addrlen, q.freeaddrinfo⟩

/-- `inetListen(service, backlog, addrlen)`. -/
def inetListen (getaddrinfo : List UInt8 → Hints → Option (List Candidate))
    (service : List UInt8) (backlog : ℤ) (addrlen : Option ℕ) (p : Process) : Passive :=
  inetPassiveSocket getaddrinfo service SOCK_STREAM addrlen true backlog p

/-- `inetBind(service, type, addrlen)`. -/
def inetBind (getaddrinfo : List UInt8 → Hints → Option (List Candidate))
    (service : List UInt8) (type : ℤ) (addrlen : Option ℕ) (p : Process) : Passive :=
  inetPassiveSocket getaddrinfo service type addrlen false 0 p

/-! One address. -/

theorem bind_sock (p : Process) (sfd : ℕ) (addr : List UInt8) :
    (p.bind sfd addr).sock sfd = { p.sock sfd with bound := some addr } :=
  Function.update_self _ _ _

theorem listen_sock (p : Process) (sfd : ℕ) (backlog : ℤ) :
    (p.listen sfd backlog).sock sfd = { p.sock sfd with listening := some backlog } :=
  Function.update_self _ _ _

/-- The same descriptors are open, for the same sockets. -/
structure Unchanged (p q : Process) : Prop where
  fds : q.fds = p.fds
  sock : ∀ fd ∈ p.fds, q.sock fd = p.sock fd

/-- One descriptor more is open. -/
structure Opened (p : Process) (sfd : ℕ) (q : Process) : Prop where
  fresh : sfd ∉ p.fds
  fds : q.fds = insert sfd p.fds
  sock : ∀ fd ∈ p.fds, q.sock fd = p.sock fd

theorem Unchanged.trans {p q r : Process} (h : Unchanged p q) (h' : Unchanged q r) :
    Unchanged p r where
  fds := h'.fds.trans h.fds
  sock fd hfd := (h'.sock fd (by rwa [h.fds])).trans (h.sock fd hfd)

theorem Unchanged.opened {p q r : Process} {sfd : ℕ} (h : Unchanged p q) (h' : Opened q sfd r) :
    Opened p sfd r where
  fresh := by
    rw [← h.fds]
    exact h'.fresh
  fds := by rw [h'.fds, h.fds]
  sock fd hfd := (h'.sock fd (by rwa [h.fds])).trans (h.sock fd hfd)

theorem socket_opened (p : Process) (ai : Addrinfo) :
    Opened p (p.socket ai).1 (p.socket ai).2 where
  fresh := lowestFree_notMem p.fds
  fds := rfl
  sock fd hfd := by
    apply Function.update_of_ne
    rintro rfl
    exact lowestFree_notMem p.fds hfd

section Opened

variable {p q : Process} {sfd : ℕ} (h : Opened p sfd q)
include h

/-- Calls on the new descriptor leave the others alone. -/
theorem Opened.update (s : Sock) :
    Opened p sfd { q with sock := Function.update q.sock sfd s } where
  fresh := h.fresh
  fds := h.fds
  sock fd hfd := by
    rw [← h.sock fd hfd]
    apply Function.update_of_ne
    rintro rfl
    exact h.fresh hfd

theorem Opened.close : Unchanged p (q.close sfd) where
  fds := by
    change q.fds.erase sfd = p.fds
    rw [h.fds, Finset.erase_insert h.fresh]
  sock := h.sock

end Opened

/-! The loop. -/

/-- The loop ends with this address. -/
def Candidate.stops (doListen : Bool) (rp : Candidate) : Bool :=
  rp.socketOk && ((doListen && !rp.setsockoptOk) || rp.bindOk)

/-- How the loop ends, when it ends with `rp`: it returned -1, or the one descriptor that is left is
bound. -/
def EndsWith (doListen : Bool) (p : Process) : Option Candidate → Walk × Process → Prop
  | none, w => w.1 = .exhausted ∧ Unchanged p w.2 ∧ w.2.lists = p.lists
  | some rp, w =>
    if doListen && !rp.setsockoptOk then
      w.1 = .failed ∧ Unchanged p w.2 ∧ w.2.lists = p.lists-1
    else ∃ sfd, w.1 = .bound rp sfd ∧ Opened p sfd w.2 ∧ w.2.lists = p.lists ∧
      (w.2.sock sfd).bound = some rp.addr

theorem EndsWith.of_unchanged {doListen : Bool} {p q : Process} {rp : Option Candidate}
    {w : Walk × Process} (hq : Unchanged p q) (hlists : q.lists = p.lists)
    (h : EndsWith doListen q rp w) : EndsWith doListen p rp w := by
  cases rp with
  | none => exact ⟨h.1, hq.trans h.2.1, h.2.2.trans hlists⟩
  | some rp =>
    unfold EndsWith at h ⊢
    dsimp only at h ⊢
    split
    · next hset =>
      rw [if_pos hset, hlists] at h
      exact ⟨h.1, hq.trans h.2.1, h.2.2⟩
    · next hset =>
      rw [if_neg hset] at h
      obtain ⟨sfd, hbound, hopened, hl, haddr⟩ := h
      exact ⟨sfd, hbound, hq.opened hopened, hl.trans hlists, haddr⟩

/-- With `SO_REUSEADDR` set or not, the new descriptor is open. -/
theorem opened_reuseaddr (doListen : Bool) (p : Process) (ai : Addrinfo) :
    Opened p (p.socket ai).1
      (if doListen then (p.socket ai).2.setReuseaddr (p.socket ai).1 else (p.socket ai).2) := by
  cases doListen with
  | false => exact socket_opened p ai
  | true => exact (socket_opened p ai).update _

theorem lists_reuseaddr (doListen : Bool) (p : Process) (ai : Addrinfo) :
    (if doListen then (p.socket ai).2.setReuseaddr (p.socket ai).1
      else (p.socket ai).2).lists = p.lists := by
  cases doListen with
  | false => rfl
  | true => rfl

theorem walk_endsWith (doListen : Bool) (p : Process) (cs : List Candidate) :
    EndsWith doListen p (cs.find? (Candidate.stops doListen)) (walk doListen p cs) := by
  induction cs generalizing p with
  | nil => exact ⟨rfl, ⟨rfl, fun fd _ => rfl⟩, rfl⟩
  | cons rp rest ih =>
    have hopened := opened_reuseaddr doListen p rp.toAddrinfo
    have hlists := lists_reuseaddr doListen p rp.toAddrinfo
    unfold walk
    dsimp only
    by_cases hsocket : rp.socketOk = true
    · rw [if_pos hsocket]
      by_cases hset : (doListen && !rp.setsockoptOk) = true
      · -- `setsockopt` failed: the descriptor is closed
        have hstops : rp.stops doListen = true := by
          rw [Candidate.stops, hsocket, hset]
          rfl
        rw [if_pos hset, List.find?_cons_of_pos hstops]
        unfold EndsWith
        dsimp only
        rw [if_pos hset]
        have hclosed := (socket_opened p rp.toAddrinfo).close
        exact ⟨rfl, ⟨hclosed.fds, hclosed.sock⟩, rfl⟩
      · rw [if_neg hset]
        by_cases hbind : rp.bindOk = true
        · have hstops : rp.stops doListen = true := by
            rw [Candidate.stops, hsocket, hbind, Bool.or_true]
            rfl
          rw [if_pos hbind, List.find?_cons_of_pos hstops]
          unfold EndsWith
          dsimp only
          rw [if_neg hset]
          refine ⟨_, rfl, hopened.update _, hlists, ?_⟩
          exact congrArg Sock.bound (bind_sock _ _ _)
        · -- the next address, after the descriptor is closed
          have hstops : ¬ rp.stops doListen = true := by
            rw [Bool.not_eq_true] at hset hbind
            rw [Candidate.stops, hsocket, hset, hbind]
            decide
          rw [if_neg hbind, List.find?_cons_of_neg hstops]
          exact (ih _).of_unchanged hopened.close hlists
    · have hstops : ¬ rp.stops doListen = true := by
        intro h
        exact hsocket (Bool.and_eq_true_iff.mp h).1
      rw [if_neg hsocket, List.find?_cons_of_neg hstops]
      exact ih p

/-! The call. -/

/-- It returned a descriptor, the only one it left open, of a socket that is bound, and listens if
it is to; or it returned -1 and left none open. -/
def LeaksNothing (doListen : Bool) (backlog : ℤ) (p : Process) (o : Passive) : Prop :=
  (∃ sfd : ℕ, o.rc = sfd ∧ Opened p sfd o.process ∧ (o.process.sock sfd).bound.isSome ∧
    (doListen = true → (o.process.sock sfd).listening = some backlog)) ∨
  (o.rc = -1 ∧ Unchanged p o.process)

/-- A descriptor that stays open is a leak when -1 is returned. -/
theorem Opened.leaks {doListen : Bool} {backlog : ℤ} {p : Process} {sfd : ℕ} {o : Passive}
    (h : Opened p sfd o.process) (hrc : o.rc = -1) : ¬ LeaksNothing doListen backlog p o := by
  rintro (⟨fd, hfd, -⟩ | ⟨-, hsame⟩)
  · omega
  · have hmem : sfd ∈ p.fds := by
      rw [← hsame.fds, h.fds]
      exact Finset.mem_insert_self _ _
    exact h.fresh hmem

/-- `listen` is called if it is to be. -/
theorem listening_spec (doListen : Bool) (backlog : ℤ) {p q : Process} {sfd : ℕ}
    (h : Opened p sfd q) :
    (if doListen then q.listen sfd backlog else q).lists = q.lists ∧
    Opened p sfd (if doListen then q.listen sfd backlog else q) ∧
    ((if doListen then q.listen sfd backlog else q).sock sfd).bound = (q.sock sfd).bound ∧
    (doListen = true → ((if doListen then q.listen sfd backlog else q).sock sfd).listening =
      some backlog) := by
  cases doListen with
  | false => exact ⟨rfl, h, rfl, fun hdo => by cases hdo⟩
  | true =>
    have hbound := congrArg Sock.bound (listen_sock q sfd backlog)
    have hlistening := congrArg Sock.listening (listen_sock q sfd backlog)
    exact ⟨rfl, h.update _, hbound, fun _ => hlistening⟩

/-- The loop ends with a bound socket, for which `listen` fails. -/
def ListenFails (doListen : Bool) (cs : List Candidate) : Prop :=
  doListen = true ∧ ∃ rp, cs.find? (Candidate.stops doListen) = some rp ∧
    rp.setsockoptOk = true ∧ rp.listenOk = false

section Call

variable (getaddrinfo : List UInt8 → Hints → Option (List Candidate)) (service : List UInt8)
  (type : ℤ) (addrlen : Option ℕ) (doListen : Bool) (backlog : ℤ) (p : Process)

/-- How the call ends, by the address that the loop ended with. -/
theorem inetPassiveSocket_cases {cs : List Candidate}
    (hcs : getaddrinfo service ⟨AF_UNSPEC, type, AI_PASSIVE⟩ = some cs) {o : Passive}
    (ho : o = inetPassiveSocket getaddrinfo service type addrlen doListen backlog p) :
    o.process.lists = p.lists ∧
    ((¬ ListenFails doListen cs ∧ LeaksNothing doListen backlog p o) ∨
      (ListenFails doListen cs ∧ o.rc = -1 ∧ ∃ sfd, Opened p sfd o.process)) := by
  unfold inetPassiveSocket at ho
  rw [hcs] at ho
  dsimp only at ho
  have hwalk := walk_endsWith doListen { p with lists := p.lists+1 } cs
  generalize walk doListen { p with lists := p.lists+1 } cs = w at ho hwalk
  obtain ⟨w, q⟩ := w
  unfold ListenFails
  cases hfind : cs.find? (Candidate.stops doListen) with
  | none =>
    rw [hfind] at hwalk
    obtain ⟨hw, hsame, hlists⟩ := hwalk
    dsimp only at hw hlists
    subst hw ho
    refine ⟨Nat.sub_eq_of_eq_add hlists, .inl ⟨?_, .inr ⟨rfl, hsame.fds, hsame.sock⟩⟩⟩
    rintro ⟨-, rp, hrp, -⟩
    cases hrp
  | some rp =>
    rw [hfind] at hwalk
    unfold EndsWith at hwalk
    dsimp only at hwalk
    by_cases hset : (doListen && !rp.setsockoptOk) = true
    · rw [if_pos hset] at hwalk
      obtain ⟨rfl, hsame, hlists⟩ := hwalk
      subst ho
      refine ⟨hlists, .inl ⟨?_, .inr ⟨rfl, hsame.fds, hsame.sock⟩⟩⟩
      rintro ⟨hdo, rp', hrp, hok, -⟩
      obtain rfl := Option.some.inj hrp
      rw [hdo, hok] at hset
      cases hset
    · rw [if_neg hset] at hwalk
      obtain ⟨sfd, rfl, hopened, hlists, haddr⟩ := hwalk
      dsimp only at ho
      by_cases hlisten : (doListen && !rp.listenOk) = true
      · -- the descriptor stays open
        rw [if_pos hlisten] at ho
        subst ho
        obtain ⟨hdo, hno⟩ := Bool.and_eq_true_iff.mp hlisten
        refine ⟨Nat.sub_eq_of_eq_add hlists, .inr ⟨⟨hdo, rp, rfl, ?_, ?_⟩, rfl, sfd, ?_⟩⟩
        · rw [hdo, Bool.true_and, Bool.not_eq_true, Bool.not_eq_false'] at hset
          exact hset
        · rwa [Bool.not_eq_true'] at hno
        · exact ⟨hopened.fresh, hopened.fds, hopened.sock⟩
      · rw [if_neg hlisten] at ho
        subst ho
        have hnot : ¬ (doListen = true ∧ ∃ rp', some rp = some rp' ∧ rp'.setsockoptOk = true ∧
            rp'.listenOk = false) := by
          rintro ⟨hdo, rp', hrp, -, hno⟩
          obtain rfl := Option.some.inj hrp
          apply hlisten
          rw [hdo, hno]
          rfl
        obtain ⟨hlists', hopened', hbound, hlistening⟩ :=
          listening_spec doListen backlog hopened
        refine ⟨Nat.sub_eq_of_eq_add (hlists'.trans hlists), .inl ⟨hnot, .inl ⟨sfd, rfl, ?_⟩⟩⟩
        refine ⟨⟨hopened'.fresh, hopened'.fds, hopened'.sock⟩, ?_, hlistening⟩
        exact Option.isSome_iff_exists.mpr ⟨rp.addr, hbound.trans haddr⟩

theorem inetPassiveSocket_none
    (hcs : getaddrinfo service ⟨AF_UNSPEC, type, AI_PASSIVE⟩ = none) :
    inetPassiveSocket getaddrinfo service type addrlen doListen backlog p =
      ⟨-1, addrlen, p⟩ := by
  unfold inetPassiveSocket
  rw [hcs]

theorem leaksNothing_of
    (hok : ∀ cs, getaddrinfo service ⟨AF_UNSPEC, type, AI_PASSIVE⟩ = some cs →
      ¬ ListenFails doListen cs) :
    LeaksNothing doListen backlog p
      (inetPassiveSocket getaddrinfo service type addrlen doListen backlog p) := by
  cases hcs : getaddrinfo service ⟨AF_UNSPEC, type, AI_PASSIVE⟩ with
  | none =>
    rw [inetPassiveSocket_none _ _ _ _ _ _ _ hcs]
    exact .inr ⟨rfl, rfl, fun fd _ => rfl⟩
  | some cs =>
    obtain ⟨-, ⟨-, hnothing⟩ | ⟨hfails, -⟩⟩ :=
      inetPassiveSocket_cases getaddrinfo service type addrlen doListen backlog p hcs rfl
    · exact hnothing
    · exact absurd hfails (hok cs hcs)

/-- `inetBind` does not listen, and leaks nothing on any input. -/
theorem inetBind_leaksNothing :
    LeaksNothing false 0 p (inetBind getaddrinfo service type addrlen p) := by
  apply leaksNothing_of
  rintro cs - ⟨hdo, -⟩
  cases hdo

/-- `inetListen` leaks nothing when `listen` does not fail. -/
theorem inetListen_leaksNothing
    (hlisten : ∀ cs, getaddrinfo service ⟨AF_UNSPEC, SOCK_STREAM, AI_PASSIVE⟩ = some cs →
      ∀ rp ∈ cs, rp.listenOk = true) :
    LeaksNothing true backlog p (inetListen getaddrinfo service backlog addrlen p) := by
  apply leaksNothing_of
  rintro cs hcs ⟨-, rp, hrp, -, hno⟩
  rw [hlisten cs hcs rp (List.mem_of_find?_eq_some hrp)] at hno
  cases hno

end Call

/-- Nothing stays open but the descriptor that is returned, unless the loop ends with a bound socket
for which `listen` fails; the list of addresses is always freed. -/
theorem inetPassiveSocket_leaks_nothing_iff
    (getaddrinfo : List UInt8 → Hints → Option (List Candidate)) (service : List UInt8)
    (type : ℤ) (addrlen : Option ℕ) (doListen : Bool) (backlog : ℤ) (p : Process) :
    (LeaksNothing doListen backlog p
        (inetPassiveSocket getaddrinfo service type addrlen doListen backlog p) ↔
      ∀ cs, getaddrinfo service ⟨AF_UNSPEC, type, AI_PASSIVE⟩ = some cs →
        ¬ ListenFails doListen cs) ∧
    (inetPassiveSocket getaddrinfo service type addrlen doListen backlog p).process.lists =
      p.lists := by
  constructor
  · refine ⟨fun hnothing cs hcs hfails => ?_, leaksNothing_of _ _ _ _ _ _ _⟩
    obtain ⟨-, ⟨hnot, -⟩ | ⟨-, hrc, sfd, hopened⟩⟩ :=
      inetPassiveSocket_cases getaddrinfo service type addrlen doListen backlog p hcs rfl
    · exact hnot hfails
    · exact hopened.leaks hrc hnothing
  · cases hcs : getaddrinfo service ⟨AF_UNSPEC, type, AI_PASSIVE⟩ with
    | none => rw [inetPassiveSocket_none _ _ _ _ _ _ _ hcs]
    | some cs =>
      exact (inetPassiveSocket_cases getaddrinfo service type addrlen doListen backlog p hcs rfl).1

/-- One address, for which everything but `listen` succeeds. -/
theorem inetPassiveSocket_leaks_listener :
    ¬ LeaksNothing true 5 ⟨{0, 1, 2}, fun _ => ⟨0, 0, 0, false, none, none⟩, 0⟩
      (inetPassiveSocket (fun _ _ => some [⟨⟨2, 1, 6, [], 16⟩, true, true, true, false⟩]) [] 1
        none true 5 ⟨{0, 1, 2}, fun _ => ⟨0, 0, 0, false, none, none⟩, 0⟩) := by
  obtain ⟨-, ⟨hnot, -⟩ | ⟨-, hrc, sfd, hopened⟩⟩ := inetPassiveSocket_cases
    (fun _ _ => some [⟨⟨2, 1, 6, [], 16⟩, true, true, true, false⟩]) [] 1 none true 5
    ⟨{0, 1, 2}, fun _ => ⟨0, 0, 0, false, none, none⟩, 0⟩ rfl rfl
  · exact absurd ⟨rfl, _, rfl, rfl, rfl⟩ hnot
  · exact hopened.leaks hrc

end LinuxPrograms.Etcp
