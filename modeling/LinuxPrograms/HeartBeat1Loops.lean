import LinuxPrograms.LibRecords

/-! The `select` loops of heartBeat1 (hb_client.c, hb_server.c): what a time-out does, and what the
bytes do that one `recv` returns. Both programs read a message in pieces, with `cnt` counting the
bytes that are still missing. -/
namespace LinuxPrograms.HeartBeat1
open Lib

def msgType1 : ℕ := 1
def msgType2 : ℕ := 2
def msgHeartbeat : ℕ := 3

/-- `T1`: idle time before a heartbeat. -/
def t1 : ℕ := 60

/-- `T2`: time to wait for the response. -/
def t2 : ℕ := 10

/-- `sizeof(msg_t)`: the type and 2000 bytes of data. -/
def sizeofMsg : ℕ := 4+2000

theorem sizeofMsg_pos : 0 < sizeofMsg := by decide

/-- `msg_t`, as its bytes in memory. -/
structure Msg where
  bytes : List UInt8
  size : bytes.length = sizeofMsg

/-- `ntohl(msg.type)`. -/
def Msg.type (m : Msg) : ℕ := ntohl (leNat (m.bytes.take 4))

/-- Writes `src` at `(char *)&msg + off`. -/
def Msg.write (m : Msg) (off : ℕ) (src : List UInt8) (h : off+src.length ≤ sizeofMsg) : Msg where
  bytes := copyTo m.bytes off src
  size := by rw [copyTo_length _ _ _ (by rw [m.size]; exact h), m.size]

/-- `msg.type = htonl(type)`. -/
def Msg.setType (m : Msg) (type : ℕ) : Msg :=
  m.write 0 (leBytes (htonl type)) (by rw [leBytes_length]; decide)

@[ext] theorem Msg.ext {m n : Msg} (h : m.bytes = n.bytes) : m = n := by
  obtain ⟨l, hl⟩ := m
  obtain ⟨k, hk⟩ := n
  obtain rfl : l = k := h
  rfl

theorem Msg.setType_bytes (m : Msg) (type : ℕ) :
    (m.setType type).bytes = beBytes type ++ m.bytes.drop 4 := by
  change copyTo m.bytes 0 (leBytes (htonl type)) = _
  rw [leBytes_htonl, copyTo, List.take_zero, List.nil_append]
  rfl

theorem Msg.type_setType (m : Msg) (type : ℕ) (h : type < 2^32) : (m.setType type).type = type := by
  have htake : (m.setType type).bytes.take 4 = beBytes type := by
    rw [Msg.setType_bytes, ← beBytes_length type, List.take_left]
  rw [Msg.type, htake, ntohl_leNat (beBytes_length type), beNat_beBytes type h]

/-- `msg` and `cnt`: the message that is being read, and how many of its bytes are missing. -/
structure Inline where
  msg : Msg
  cnt : ℕ
  cnt_pos : 0 < cnt
  cnt_le : cnt ≤ sizeofMsg

/-- The in-line readn: the bytes `recv` returned go to the end of what is there, and a complete
message starts the next one. -/
def Inline.recv (r : Inline) (bytes : List UInt8) (h : bytes.length ≤ r.cnt) :
    Inline × Option Msg :=
  have hcnt := r.cnt_le
  let msg := r.msg.write (sizeofMsg-r.cnt) bytes (by omega)
  if hpos : r.cnt-bytes.length > 0 then
    ({ msg, cnt := r.cnt-bytes.length, cnt_pos := hpos, cnt_le := by omega }, none)
  else ({ msg, cnt := sizeofMsg, cnt_pos := by decide, cnt_le := le_rfl }, some msg)

/-- What a round of a loop does to the outside: a complete message is processed, or a message is
sent. -/
inductive Event
  | process (m : Msg)
  | send (m : Msg)

/-- How a round ends: with `error(1, ...)`, or back at `select`. -/
inductive Round (σ : Type)
  | exit (s : σ)
  | back (s : σ) (events : List Event)

/-- The variables of `main` (hb_client.c); `tv` is `tv.tv_sec`. -/
structure Client extends Inline where
  tv : ℕ
  heartbeats : ℕ

/-- `select` timed out. -/
def Client.timeout (c : Client) : Round Client :=
  if c.heartbeats+1 > 3 then .exit { c with heartbeats := c.heartbeats+1 }
  else
    -- the heartbeat is sent from the same `msg` that a message is being read into
    let msg := c.msg.setType msgHeartbeat
    .back { c with msg, heartbeats := c.heartbeats+1, tv := t2 } [.send msg]

/-- `recv` returned `bytes`. -/
def Client.recv (c : Client) (bytes : List UInt8) (h : bytes.length ≤ c.cnt) : Round Client :=
  if bytes.length = 0 then .exit c
  else
    let (inline, complete) := c.toInline.recv bytes h
    .back { inline with heartbeats := 0, tv := t1 } (complete.toList.map .process)

theorem Client.recv_of_pos (c : Client) {bytes : List UInt8} (h : bytes.length ≤ c.cnt)
    (hpos : 0 < bytes.length) : c.recv bytes h =
      .back { (c.toInline.recv bytes h).1 with heartbeats := 0, tv := t1 }
        ((c.toInline.recv bytes h).2.toList.map .process) := by
  unfold Client.recv
  rw [if_neg hpos.ne']

/-- The variables of `main` (hb_server.c). -/
structure Server extends Inline where
  tv : ℕ
  missedHeartbeats : ℕ

/-- `select` timed out. -/
def Server.timeout (s : Server) : Round Server :=
  if s.missedHeartbeats+1 > 3 then .exit { s with missedHeartbeats := s.missedHeartbeats+1 }
  else .back { s with missedHeartbeats := s.missedHeartbeats+1, tv := t2 } []

/-- The `switch`; `none` is its default. -/
def switch (m : Msg) : Option (List Event) :=
  if m.type = msgType1 then some [.process m]
  else if m.type = msgType2 then some [.process m]
  else if m.type = msgHeartbeat then some [.process m, .send m]
  else none

/-- `recv` returned `bytes`. -/
def Server.recv (s : Server) (bytes : List UInt8) (h : bytes.length ≤ s.cnt) : Round Server :=
  if bytes.length = 0 then .exit s
  else
    let (inline, complete) := s.toInline.recv bytes h
    let s := { inline with missedHeartbeats := 0, tv := t1+t2 }
    match complete with
    | none => .back s []
    | some m =>
      match switch m with
      | none => .exit s
      | some events => .back s events

theorem Server.recv_of_pos (s : Server) {bytes : List UInt8} (h : bytes.length ≤ s.cnt)
    (hpos : 0 < bytes.length) : s.recv bytes h =
      let s' : Server :=
        { (s.toInline.recv bytes h).1 with missedHeartbeats := 0, tv := t1+t2 }
      match (s.toInline.recv bytes h).2 with
      | none => .back s' []
      | some m =>
        match switch m with
        | none => .exit s'
        | some events => .back s' events := by
  unfold Server.recv
  rw [if_neg hpos.ne']

end LinuxPrograms.HeartBeat1
