import LinuxPrograms.EtcpPassiveSocket
import LinuxPrograms.LibNumerals
import Mathlib.Data.BitVec

/-! `set_address` (etcp.c), and the sockets that `tcp_client`, `tcp_server`, `udp_client` and
`udp_server` open with it: which ports the numerals of a service reach. -/
namespace LinuxPrograms.Etcp
open Lib

def AF_INET : ℤ := 2
def SOCK_DGRAM : ℤ := 2
def NLISTEN : ℤ := 128

/-- `struct sockaddr_in`, with `sin_port` and `sin_addr` as they stand in memory. -/
structure SockaddrIn where
  port : List UInt8
  addr : List UInt8
deriving DecidableEq, Repr

/-- The sixteen bytes of it, from `sin_family` to `sin_zero`. -/
def SockaddrIn.bytes (a : SockaddrIn) : List UInt8 :=
  [2, 0] ++ a.port ++ a.addr ++ List.replicate 8 0

/-- The bytes in memory of `htons(port)`: the high one first. -/
def htons (port : BitVec 16) : List UInt8 :=
  [UInt8.ofNat (port.toNat/256), UInt8.ofNat (port.toNat%256)]

/-- `inet_aton`, `gethostbyname` and `getservbyname`, with addresses and ports as in memory. -/
structure Netdb where
  inetAton : List UInt8 → Option (List UInt8)
  gethostbyname : List UInt8 → Option (List UInt8)
  getservbyname : List UInt8 → String → Option (List UInt8)

/-- `.error`: the program has ended, with this message. -/
abbrev Ends := Except (List UInt8)

/-- The address of the host; `INADDR_ANY` when `hname` is `NULL`. -/
def hostAddr (db : Netdb) : Option (List UInt8) → Ends (List UInt8)
  | none => .ok [0, 0, 0, 0]
  | some hname =>
    match db.inetAton hname with
    | some addr => .ok addr
    | none =>
      match db.gethostbyname hname with
      | some addr => .ok addr
      | none => .error (bytes "unknown host: " ++ hname ++ bytes "\n")

/-- The port of the service; `port` is a `short`. -/
def servicePort (db : Netdb) (sname : List UInt8) (protocol : String) : Ends (List UInt8) :=
  let read := strtol 0 sname
  if read.endptr = [] then .ok (htons (BitVec.ofInt 16 read.res))
  else
    match db.getservbyname sname protocol with
    | some port => .ok port
    | none => .error (bytes "unknown service: " ++ sname ++ bytes "\n")

def setAddress (db : Netdb) (hname : Option (List UInt8)) (sname : List UInt8)
    (protocol : String) : Ends SockaddrIn :=
  match hostAddr db hname, servicePort db sname protocol with
  | .ok addr, .ok port => .ok ⟨port, addr⟩
  | .error text, _ => .error text
  | _, .error text => .error text

/-- Whether the calls for the socket succeed. -/
structure Calls where
  socketOk : Bool
  setsockoptOk : Bool
  bindOk : Bool
  listenOk : Bool
  connectOk : Bool

/-- `error(1, errno, …)`, without what it says of `errno`. -/
def fatal {α : Type} (text : String) : Ends α := .error (bytes text)

/-- `socket(AF_INET, type, 0)`. -/
def inetSocket (ok : Bool) (type : ℤ) (p : Process) : Ends (ℕ × Process) :=
  if ok then .ok (p.socket ⟨AF_INET, type, 0, [], 0⟩) else fatal "socket call failed"

/-- The descriptor, the process afterwards and the address of the peer. -/
def tcpClient (db : Netdb) (calls : Calls) (hname : Option (List UInt8)) (sname : List UInt8)
    (p : Process) : Ends (ℕ × Process × SockaddrIn) := do
  let peer ← setAddress db hname sname "tcp"
  let s ← inetSocket calls.socketOk SOCK_STREAM p
  if calls.connectOk then .ok (s.1, s.2, peer) else fatal "connect failed"

def tcpServer (db : Netdb) (calls : Calls) (hname : Option (List UInt8)) (sname : List UInt8)
    (p : Process) : Ends (ℕ × Process) := do
  let localAddr ← setAddress db hname sname "tcp"
  let s ← inetSocket calls.socketOk SOCK_STREAM p
  if !calls.setsockoptOk then fatal "setsockopt failed"
  else if !calls.bindOk then fatal "bind failed"
  else if !calls.listenOk then fatal "listen failed"
  else .ok (s.1, ((s.2.setReuseaddr s.1).bind s.1 localAddr.bytes).listen s.1 NLISTEN)

/-- The descriptor, the process afterwards and `*sap`. -/
def udpClient (db : Netdb) (calls : Calls) (hname : Option (List UInt8)) (sname : List UInt8)
    (p : Process) : Ends (ℕ × Process × SockaddrIn) := do
  let sap ← setAddress db hname sname "udp"
  let s ← inetSocket calls.socketOk SOCK_DGRAM p
  .ok (s.1, s.2, sap)

def udpServer (db : Netdb) (calls : Calls) (hname : Option (List UInt8)) (sname : List UInt8)
    (p : Process) : Ends (ℕ × Process) := do
  let localAddr ← setAddress db hname sname "udp"
  let s ← inetSocket calls.socketOk SOCK_DGRAM p
  if calls.bindOk then .ok (s.1, s.2.bind s.1 localAddr.bytes) else fatal "bind failed"

variable {db : Netdb} {hname : Option (List UInt8)} {sname : List UInt8} {v : ℤ}
  {protocol : String}

/-- The port that a number ends up as. -/
def portOf (v : ℤ) : ℕ := (toLong v % 65536).toNat

/-- That port in memory. -/
def portBytes (v : ℤ) : List UInt8 := [UInt8.ofNat (portOf v/256), UInt8.ofNat (portOf v%256)]

theorem servicePort_numeral (h : Numeral 0 sname v) :
    servicePort db sname protocol = .ok (portBytes v) := by
  rw [servicePort, strtol_numeral h]
  dsimp only
  rw [if_pos rfl, htons, BitVec.toNat_ofInt]
  rfl

theorem setAddress_numeral (h : Numeral 0 sname v) {addr : List UInt8}
    (hhost : hostAddr db hname = .ok addr) :
    setAddress db hname sname protocol = .ok ⟨portBytes v, addr⟩ := by
  rw [setAddress, hhost, servicePort_numeral h]

/-- Of the host and the service, an unknown host is reported first. -/
theorem setAddress_unknown {text : List UInt8} (hhost : hostAddr db hname = .error text) :
    setAddress db hname sname protocol = .error text := by
  rw [setAddress, hhost]

/-- A port is the number that names it, in decimal, in octal and in hexadecimal. -/
theorem port_notations {port : ℕ} (hport : port < 65536)
    (hs : sname = printed 10 port ∨ sname = 48 :: inBase 8 port ∨
      sname = 48 :: 120 :: inBase 16 port) : Numeral 0 sname port ∧ portOf port = port := by
  constructor
  · rcases hs with rfl | rfl | rfl
    · exact numeral_printed Digits.decimal_any port
    · exact (Digits.octal_any port).numeral
    · exact (Digits.hex_any (.inl rfl) port).numeral
  · rw [portOf, toLong_of_fits (by rw [longMin]; omega) (by rw [longMax]; omega)]
    omega

theorem inetSocket_ok (type : ℤ) (p : Process) :
    inetSocket true type p = .ok (p.socket ⟨AF_INET, type, 0, [], 0⟩) :=
  rfl

theorem socket_sock (p : Process) (ai : Addrinfo) :
    (p.socket ai).2.sock (p.socket ai).1 =
      ⟨ai.family, ai.socktype, ai.protocol, false, none, none⟩ :=
  Function.update_self _ _ _

theorem setReuseaddr_sock (p : Process) (sfd : ℕ) :
    (p.setReuseaddr sfd).sock sfd = { p.sock sfd with reuseaddr := true } :=
  Function.update_self _ _ _

section Numeral

variable (calls : Calls) (p : Process) (h : Numeral 0 sname v) {addr : List UInt8}
  (hhost : hostAddr db hname = .ok addr)
include h hhost

theorem tcpServer_numeral (hsocket : calls.socketOk = true) (hreuse : calls.setsockoptOk = true)
    (hbind : calls.bindOk = true) (hlisten : calls.listenOk = true) :
    ∃ sfd q, tcpServer db calls hname sname p = .ok (sfd, q) ∧ Opened p sfd q ∧
      q.sock sfd = ⟨AF_INET, SOCK_STREAM, 0, true, some (SockaddrIn.mk (portBytes v) addr).bytes,
        some NLISTEN⟩ := by
  have hopened := socket_opened p ⟨AF_INET, SOCK_STREAM, 0, [], 0⟩
  have hsock := socket_sock p ⟨AF_INET, SOCK_STREAM, 0, [], 0⟩
  generalize hs : p.socket ⟨AF_INET, SOCK_STREAM, 0, [], 0⟩ = s at hopened hsock
  refine ⟨s.1, ((s.2.setReuseaddr s.1).bind s.1 (SockaddrIn.mk (portBytes v) addr).bytes).listen s.1
    NLISTEN, ?_, ((hopened.update _).update _).update _, ?_⟩
  · rw [tcpServer, setAddress_numeral h hhost, hsocket, inetSocket_ok, hreuse, hbind, hlisten, hs]
    rfl
  · rw [listen_sock, bind_sock, setReuseaddr_sock, hsock]

theorem udpServer_numeral (hsocket : calls.socketOk = true) (hbind : calls.bindOk = true) :
    ∃ sfd q, udpServer db calls hname sname p = .ok (sfd, q) ∧ Opened p sfd q ∧
      q.sock sfd = ⟨AF_INET, SOCK_DGRAM, 0, false, some (SockaddrIn.mk (portBytes v) addr).bytes,
        none⟩ := by
  have hopened := socket_opened p ⟨AF_INET, SOCK_DGRAM, 0, [], 0⟩
  have hsock := socket_sock p ⟨AF_INET, SOCK_DGRAM, 0, [], 0⟩
  generalize hs : p.socket ⟨AF_INET, SOCK_DGRAM, 0, [], 0⟩ = s at hopened hsock
  refine ⟨s.1, s.2.bind s.1 (SockaddrIn.mk (portBytes v) addr).bytes, ?_, hopened.update _, ?_⟩
  · rw [udpServer, setAddress_numeral h hhost, hsocket, inetSocket_ok, hbind, hs]
    rfl
  · rw [bind_sock, hsock]

theorem tcpClient_numeral (hsocket : calls.socketOk = true) (hconnect : calls.connectOk = true) :
    ∃ sfd q, tcpClient db calls hname sname p = .ok (sfd, q, ⟨portBytes v, addr⟩) ∧
      Opened p sfd q ∧ q.sock sfd = ⟨AF_INET, SOCK_STREAM, 0, false, none, none⟩ := by
  refine ⟨_, _, ?_, socket_opened p ⟨AF_INET, SOCK_STREAM, 0, [], 0⟩, socket_sock p _⟩
  rw [tcpClient, setAddress_numeral h hhost, hsocket, inetSocket_ok, hconnect]
  rfl

theorem udpClient_numeral (hsocket : calls.socketOk = true) :
    ∃ sfd q, udpClient db calls hname sname p = .ok (sfd, q, ⟨portBytes v, addr⟩) ∧
      Opened p sfd q ∧ q.sock sfd = ⟨AF_INET, SOCK_DGRAM, 0, false, none, none⟩ := by
  refine ⟨_, _, ?_, socket_opened p ⟨AF_INET, SOCK_DGRAM, 0, [], 0⟩, socket_sock p _⟩
  rw [udpClient, setAddress_numeral h hhost, hsocket, inetSocket_ok]
  rfl

end Numeral

/-- With a number `v` for its service and a known host, or none, each of the four returns a new
descriptor when its calls succeed. The port is `v mod 65536`, once `v` is cut to a `long`: a number
that is no port is not refused, and the names of services are not consulted. A server is bound to
that port, and the one for TCP listens; a client has that port of the host for its peer. An unknown
host ends all four. The ports themselves are reached by their numbers in three notations. -/
theorem service_port_mod (db : Netdb) (calls : Calls) (p : Process) (hname : Option (List UInt8))
    {sname : List UInt8} {v : ℤ} (h : Numeral 0 sname v) :
    (∀ addr, hostAddr db hname = .ok addr → calls.socketOk = true →
      (calls.setsockoptOk = true → calls.bindOk = true → calls.listenOk = true →
        ∃ sfd q, tcpServer db calls hname sname p = .ok (sfd, q) ∧ Opened p sfd q ∧
          q.sock sfd = ⟨AF_INET, SOCK_STREAM, 0, true,
            some (SockaddrIn.mk (portBytes v) addr).bytes, some NLISTEN⟩) ∧
      (calls.bindOk = true →
        ∃ sfd q, udpServer db calls hname sname p = .ok (sfd, q) ∧ Opened p sfd q ∧
          q.sock sfd = ⟨AF_INET, SOCK_DGRAM, 0, false,
            some (SockaddrIn.mk (portBytes v) addr).bytes, none⟩) ∧
      (calls.connectOk = true →
        ∃ sfd q, tcpClient db calls hname sname p = .ok (sfd, q, ⟨portBytes v, addr⟩) ∧
          Opened p sfd q ∧ q.sock sfd = ⟨AF_INET, SOCK_STREAM, 0, false, none, none⟩) ∧
      ∃ sfd q, udpClient db calls hname sname p = .ok (sfd, q, ⟨portBytes v, addr⟩) ∧
        Opened p sfd q ∧ q.sock sfd = ⟨AF_INET, SOCK_DGRAM, 0, false, none, none⟩) ∧
    (∀ text, hostAddr db hname = .error text →
      tcpServer db calls hname sname p = .error text ∧
      udpServer db calls hname sname p = .error text ∧
      tcpClient db calls hname sname p = .error text ∧
      udpClient db calls hname sname p = .error text) ∧
    ∀ (port : ℕ) (text : List UInt8), port < 65536 → (text = printed 10 port ∨
      text = 48 :: inBase 8 port ∨ text = 48 :: 120 :: inBase 16 port) →
      Numeral 0 text port ∧ portOf port = port := by
  refine ⟨fun addr hhost hsocket => ⟨?_, ?_, ?_, ?_⟩, fun text hhost => ?_, ?_⟩
  · exact tcpServer_numeral calls p h hhost hsocket
  · exact udpServer_numeral calls p h hhost hsocket
  · exact tcpClient_numeral calls p h hhost hsocket
  · exact udpClient_numeral calls p h hhost hsocket
  · simp only [tcpServer, udpServer, tcpClient, udpClient, setAddress_unknown hhost]
    exact ⟨rfl, rfl, rfl, rfl⟩
  · exact fun port text hport => port_notations hport

/-- One host is known by its name. -/
def oneHost : Netdb :=
  ⟨fun _ => none, fun hname => if hname = bytes "www" then some [10, 0, 0, 7] else none,
    fun _ _ => none⟩

def noSockets : Process := ⟨∅, fun _ => ⟨0, 0, 0, false, none, none⟩, 0⟩

/-- `65616` is 80, and `mail` is not known. -/
theorem service_port_mod_wrapped :
    (∃ sfd q, tcpServer oneHost ⟨true, true, true, true, true⟩ (some (bytes "www"))
        (printed 10 65616) noSockets = .ok (sfd, q) ∧ Opened noSockets sfd q ∧
      q.sock sfd = ⟨AF_INET, SOCK_STREAM, 0, true,
        some [2, 0, 0, 80, 10, 0, 0, 7, 0, 0, 0, 0, 0, 0, 0, 0], some NLISTEN⟩) ∧
    udpClient oneHost ⟨true, true, true, true, true⟩ (some (bytes "mail")) (printed 10 65616)
      noSockets = .error (bytes "unknown host: mail\n") := by
  have hnumeral : Numeral 0 (printed 10 65616) 65616 := numeral_printed Digits.decimal_any 65616
  constructor
  · have hknown := (service_port_mod oneHost ⟨true, true, true, true, true⟩ noSockets
      (some (bytes "www")) hnumeral).1 [10, 0, 0, 7] (by decide) rfl
    exact hknown.1 rfl rfl rfl
  · have hunknown := (service_port_mod oneHost ⟨true, true, true, true, true⟩ noSockets
      (some (bytes "mail")) hnumeral).2.1 (bytes "unknown host: mail\n") rfl
    exact hunknown.2.2.2

end LinuxPrograms.Etcp
