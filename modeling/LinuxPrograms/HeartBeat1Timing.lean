import LinuxPrograms.HeartBeat1Framing

/-! heartBeat1 against a clock of whole seconds. Both programs run over channels that deliver whole
messages, in order and within `L` seconds; the only messages are the client's heartbeats and the
server's echoes. While `2*L < 3*T2` neither program takes the connection for dead. -/
namespace LinuxPrograms.HeartBeat1
open Lib

/-- A message on its way, delivered at `due` at the latest. -/
structure Packet where
  msg : Msg
  due : ℕ

/-- Both programs waiting in `select`, until `clientWake` and `serverWake`; the messages on their
way, oldest first, and the bytes that have arrived and were not read. `halted` is set when a program
has left its loop. -/
structure System where
  now : ℕ
  client : Client
  clientWake : ℕ
  clientSock : List UInt8
  toClient : List Packet
  server : Server
  serverWake : ℕ
  serverSock : List UInt8
  toServer : List Packet
  halted : Bool

inductive Move
  | tick
  | arriveClient
  | arriveServer
  | clientTurn
  | serverTurn

/-- The bytes `recv(s, ..., cnt, 0)` returns. -/
def received (sock : List UInt8) (cnt : ℕ) : { bytes : List UInt8 // bytes.length ≤ cnt } :=
  ⟨sock.take cnt, List.length_take_le cnt sock⟩

/-- What `select` makes of the socket: it is readable, or the time is over, or it waits on. The
round, and the bytes left in the socket. -/
def clientRound (s : System) : Option (Round Client × List UInt8) :=
  if s.clientSock ≠ [] then
    let bytes := received s.clientSock s.client.cnt
    some (s.client.recv bytes.1 bytes.2, s.clientSock.drop s.client.cnt)
  else if s.clientWake ≤ s.now then some (s.client.timeout, s.clientSock)
  else none

def serverRound (s : System) : Option (Round Server × List UInt8) :=
  if s.serverSock ≠ [] then
    let bytes := received s.serverSock s.server.cnt
    some (s.server.recv bytes.1 bytes.2, s.serverSock.drop s.server.cnt)
  else if s.serverWake ≤ s.now then some (s.server.timeout, s.serverSock)
  else none

/-- What was sent is delivered within `L` seconds. -/
def posted (L now : ℕ) (events : List Event) : List Packet :=
  (sends events).map fun m => ⟨m, now+L⟩

/-- Time goes on when neither program has anything to do and no delivery is overdue. -/
def idle (s : System) : Bool :=
  s.clientSock.isEmpty && s.serverSock.isEmpty && decide (s.now < s.clientWake) &&
    decide (s.now < s.serverWake) && (s.toClient ++ s.toServer).all fun p => s.now < p.due

def move (L : ℕ) (s : System) (a : Move) : Option System :=
  if s.halted then none
  else match a with
  | .tick => if idle s then some { s with now := s.now+1 } else none
  | .arriveClient =>
    match s.toClient with
    | [] => none
    | p :: ps => some { s with toClient := ps, clientSock := s.clientSock ++ p.msg.bytes }
  | .arriveServer =>
    match s.toServer with
    | [] => none
    | p :: ps => some { s with toServer := ps, serverSock := s.serverSock ++ p.msg.bytes }
  | .clientTurn =>
    match clientRound s with
    | none => none
    | some (.exit c, sock) => some { s with client := c, clientSock := sock, halted := true }
    | some (.back c events, sock) =>
      some { s with
        client := c, clientWake := s.now+c.tv, clientSock := sock
        toServer := s.toServer ++ posted L s.now events }
  | .serverTurn =>
    match serverRound s with
    | none => none
    | some (.exit c, sock) => some { s with server := c, serverSock := sock, halted := true }
    | some (.back c events, sock) =>
      some { s with
        server := c, serverWake := s.now+c.tv, serverSock := sock
        toClient := s.toClient ++ posted L s.now events }

/-- Time 0, both programs in their first `select`. -/
def boot (client server : Msg) : System where
  now := 0
  client := clientStart client
  clientWake := (clientStart client).tv
  clientSock := []
  toClient := []
  server := serverStart server
  serverWake := (serverStart server).tv
  serverSock := []
  toServer := []
  halted := false

/-! Whole messages stay whole. -/

/-- Neither program is inside a message, and the server is only ever sent heartbeats. -/
structure Whole (s : System) : Prop where
  clientCnt : s.client.cnt = sizeofMsg
  clientSock : ∃ ms, s.clientSock = stream ms
  serverCnt : s.server.cnt = sizeofMsg
  serverSock : ∃ ms, s.serverSock = stream ms ∧ ∀ m ∈ ms, m.type = msgHeartbeat
  toServer : ∀ p ∈ s.toServer, p.msg.type = msgHeartbeat

theorem stream_cons (m : Msg) (ms : List Msg) : stream (m :: ms) = m.bytes ++ stream ms :=
  List.flatMap_cons

theorem stream_snoc (ms : List Msg) (m : Msg) : stream (ms ++ [m]) = stream ms ++ m.bytes := by
  rw [stream, List.flatMap_append, List.flatMap_singleton]
  rfl

theorem take_stream (m : Msg) (ms : List Msg) : (stream (m :: ms)).take sizeofMsg = m.bytes := by
  rw [stream_cons, List.take_left' m.size]

theorem drop_stream (m : Msg) (ms : List Msg) : (stream (m :: ms)).drop sizeofMsg = stream ms := by
  rw [stream_cons, List.drop_left' m.size]

/-- A message that comes whole is complete at once. -/
theorem recv_whole {r : Inline} {m : Msg} (hcnt : r.cnt = sizeofMsg)
    (h : m.bytes.length ≤ r.cnt) :
    (r.recv m.bytes h).2 = some m ∧ (r.recv m.bytes h).1.cnt = sizeofMsg := by
  have hpos : ¬ r.cnt-m.bytes.length > 0 := by
    rw [m.size]
    omega
  have hwrite : ∀ hoff, r.msg.write (sizeofMsg-r.cnt) m.bytes hoff = m := by
    intro hoff
    apply Msg.ext
    change copyTo r.msg.bytes (sizeofMsg-r.cnt) m.bytes = m.bytes
    rw [hcnt, Nat.sub_self, copyTo, List.take_zero, List.nil_append, Nat.zero_add, m.size,
      List.drop_of_length_le r.msg.size.le, List.append_nil]
  unfold Inline.recv
  rw [dif_neg hpos]
  exact ⟨congrArg some (hwrite _), rfl⟩

theorem client_recv_whole {c : Client} {m : Msg} {bytes : List UInt8} (hcnt : c.cnt = sizeofMsg)
    (hbytes : bytes = m.bytes) (h : bytes.length ≤ c.cnt) :
    ∃ c' : Client, c.recv bytes h = .back c' [.process m] ∧ c'.cnt = sizeofMsg ∧
      c'.heartbeats = 0 ∧ c'.tv = t1 := by
  subst hbytes
  obtain ⟨hm, hcnt'⟩ := recv_whole hcnt h
  rw [c.recv_of_pos h (by rw [m.size]; decide), hm]
  exact ⟨_, rfl, hcnt', rfl, rfl⟩

theorem server_recv_whole {c : Server} {m : Msg} {bytes : List UInt8} (hcnt : c.cnt = sizeofMsg)
    (hbytes : bytes = m.bytes) (hm : m.type = msgHeartbeat) (h : bytes.length ≤ c.cnt) :
    ∃ c' : Server, c.recv bytes h = .back c' [.process m, .send m] ∧ c'.cnt = sizeofMsg ∧
      c'.missedHeartbeats = 0 ∧ c'.tv = t1+t2 := by
  subst hbytes
  obtain ⟨hcomplete, hcnt'⟩ := recv_whole hcnt h
  have hswitch : switch m = some [.process m, .send m] := by
    rw [switch_of_known (.inr (.inr hm)), acts, if_pos hm]
  rw [c.recv_of_pos h (by rw [m.size]; decide), hcomplete]
  refine ⟨{ (c.toInline.recv m.bytes h).1 with missedHeartbeats := 0, tv := t1+t2 }, ?_, hcnt', rfl,
    rfl⟩
  simp only [hswitch]

/-- Bytes in a socket that holds whole messages start with one. -/
theorem exists_cons_of_ne_nil {sock : List UInt8} {ms : List Msg} (h : sock = stream ms)
    (hne : sock ≠ []) : ∃ m ms', ms = m :: ms' ∧ sock.take sizeofMsg = m.bytes ∧
      sock.drop sizeofMsg = stream ms' := by
  cases ms with
  | nil => exact absurd h hne
  | cons m ms' =>
    rw [h]
    exact ⟨m, ms', rfl, take_stream m ms', drop_stream m ms'⟩

/-- What a turn of the client can be: a message comes, the connection is dead, or a heartbeat is
sent. -/
theorem clientTurn_cases {L : ℕ} {s s' : System} (hw : Whole s)
    (h : move L s .clientTurn = some s') :
    (∃ c ms, s.clientSock ≠ [] ∧ c.cnt = sizeofMsg ∧ c.heartbeats = 0 ∧
      s' = { s with client := c, clientWake := s.now+t1, clientSock := stream ms }) ∨
    (s.clientWake ≤ s.now ∧ 3 < s.client.heartbeats+1) ∨
    (∃ c m, s.clientWake ≤ s.now ∧ c.cnt = sizeofMsg ∧ c.heartbeats = s.client.heartbeats+1 ∧
      c.heartbeats ≤ 3 ∧ m.type = msgHeartbeat ∧
      s' = { s with
        client := c, clientWake := s.now+t2, toServer := s.toServer ++ [⟨m, s.now+L⟩] }) := by
  unfold move at h
  split at h
  · cases h
  by_cases hsock : s.clientSock ≠ []
  · left
    obtain ⟨ms, hms⟩ := hw.clientSock
    obtain ⟨m, ms', rfl, htake, hdrop⟩ := exists_cons_of_ne_nil hms hsock
    rw [← hw.clientCnt] at htake hdrop
    obtain ⟨c, hrecv, hcnt, hbeats, htv⟩ := client_recv_whole hw.clientCnt htake
      (received s.clientSock s.client.cnt).2
    have hround : clientRound s = some (.back c [.process m], stream ms') := by
      rw [clientRound, if_pos hsock, ← hrecv, ← hdrop]
      rfl
    simp only [hround] at h
    obtain rfl := Option.some.inj h
    refine ⟨c, ms', hsock, hcnt, hbeats, ?_⟩
    rw [htv]
    have hposted : s.toServer ++ posted L s.now [.process m] = s.toServer := List.append_nil _
    rw [hposted]
  · right
    by_cases hwake : s.clientWake ≤ s.now
    · have hround : clientRound s = some (s.client.timeout, s.clientSock) := by
        rw [clientRound, if_neg hsock, if_pos hwake]
      by_cases hdead : s.client.heartbeats+1 > 3
      · exact .inl ⟨hwake, hdead⟩
      · right
        have hback : s.client.timeout = .back
            { s.client with
              msg := s.client.msg.setType msgHeartbeat
              heartbeats := s.client.heartbeats+1, tv := t2 }
            [.send (s.client.msg.setType msgHeartbeat)] := by
          rw [Client.timeout, if_neg hdead]
        rw [hback] at hround
        simp only [hround] at h
        obtain rfl := Option.some.inj h
        refine ⟨_, _, hwake, ?_, ?_, ?_, Msg.type_setType s.client.msg _ (by decide), rfl⟩
        · exact hw.clientCnt
        · rfl
        · exact not_lt.mp hdead
    · have hround : clientRound s = none := by
        rw [clientRound, if_neg hsock, if_neg hwake]
      simp only [hround] at h
      cases h

/-- What a turn of the server can be: a heartbeat comes and is sent back, the connection is dead, or
a heartbeat was missed. -/
theorem serverTurn_cases {L : ℕ} {s s' : System} (hw : Whole s)
    (h : move L s .serverTurn = some s') :
    (∃ c m ms, s.serverSock ≠ [] ∧ c.cnt = sizeofMsg ∧ c.missedHeartbeats = 0 ∧
      (∀ x ∈ ms, x.type = msgHeartbeat) ∧
      s' = { s with
        server := c, serverWake := s.now+(t1+t2), serverSock := stream ms
        toClient := s.toClient ++ [⟨m, s.now+L⟩] }) ∨
    (s.serverWake ≤ s.now ∧ 3 < s.server.missedHeartbeats+1) ∨
    (∃ c, s.serverWake ≤ s.now ∧ c.cnt = sizeofMsg ∧
      c.missedHeartbeats = s.server.missedHeartbeats+1 ∧ c.missedHeartbeats ≤ 3 ∧
      s' = { s with server := c, serverWake := s.now+t2 }) := by
  unfold move at h
  split at h
  · cases h
  by_cases hsock : s.serverSock ≠ []
  · left
    obtain ⟨ms, hms, htypes⟩ := hw.serverSock
    obtain ⟨m, ms', rfl, htake, hdrop⟩ := exists_cons_of_ne_nil hms hsock
    rw [← hw.serverCnt] at htake hdrop
    obtain ⟨c, hrecv, hcnt, hmissed, htv⟩ := server_recv_whole hw.serverCnt htake
      (htypes m List.mem_cons_self) (received s.serverSock s.server.cnt).2
    have hround : serverRound s = some (.back c [.process m, .send m], stream ms') := by
      rw [serverRound, if_pos hsock, ← hrecv, ← hdrop]
      rfl
    simp only [hround] at h
    obtain rfl := Option.some.inj h
    refine ⟨c, m, ms', hsock, hcnt, hmissed, fun x hx => htypes x (List.mem_cons_of_mem _ hx), ?_⟩
    rw [htv]
    rfl
  · right
    by_cases hwake : s.serverWake ≤ s.now
    · have hround : serverRound s = some (s.server.timeout, s.serverSock) := by
        rw [serverRound, if_neg hsock, if_pos hwake]
      by_cases hdead : s.server.missedHeartbeats+1 > 3
      · exact .inl ⟨hwake, hdead⟩
      · right
        have hback : s.server.timeout = .back
            { s.server with missedHeartbeats := s.server.missedHeartbeats+1, tv := t2 } [] := by
          rw [Server.timeout, if_neg hdead]
        rw [hback] at hround
        simp only [hround] at h
        obtain rfl := Option.some.inj h
        have hposted : s.toClient ++ posted L s.now [] = s.toClient := List.append_nil _
        rw [hposted]
        refine ⟨_, hwake, ?_, ?_, ?_, rfl⟩
        · exact hw.serverCnt
        · rfl
        · exact not_lt.mp hdead
    · have hround : serverRound s = none := by
        rw [serverRound, if_neg hsock, if_neg hwake]
      simp only [hround] at h
      cases h

/-- The moves that do not run a program. -/
theorem tick_cases {L : ℕ} {s s' : System} (h : move L s .tick = some s') :
    s.clientSock = [] ∧ s.serverSock = [] ∧ s.now < s.clientWake ∧ s.now < s.serverWake ∧
      (∀ p ∈ s.toClient, s.now < p.due) ∧ (∀ p ∈ s.toServer, s.now < p.due) ∧
      s' = { s with now := s.now+1 } := by
  unfold move at h
  split at h
  · cases h
  · simp only at h
    split at h
    · next hidle =>
      obtain rfl := Option.some.inj h
      simp only [idle, Bool.and_eq_true, List.isEmpty_iff, decide_eq_true_eq, List.all_eq_true,
        List.mem_append] at hidle
      obtain ⟨⟨⟨⟨hc, hs⟩, hcw⟩, hsw⟩, hdue⟩ := hidle
      exact ⟨hc, hs, hcw, hsw, fun p hp => hdue p (.inl hp), fun p hp => hdue p (.inr hp), rfl⟩
    · cases h

/-- A message arrives at one of the two. -/
theorem arrive_cases {L : ℕ} {s s' : System} {a : Move} (h : move L s a = some s') :
    (a = .arriveClient → ∃ p ps, s.toClient = p :: ps ∧
      s' = { s with toClient := ps, clientSock := s.clientSock ++ p.msg.bytes }) ∧
    (a = .arriveServer → ∃ p ps, s.toServer = p :: ps ∧
      s' = { s with toServer := ps, serverSock := s.serverSock ++ p.msg.bytes }) := by
  constructor
  all_goals
    rintro rfl
    unfold move at h
    split at h
    · cases h
    · simp only at h
      split at h
      · cases h
      · next p ps hps => exact ⟨p, ps, hps, (Option.some.inj h).symm⟩

/-! What is on its way. -/

/-- A message can be read by time `t`: it is on its way, or it has arrived. -/
def Coming (now : ℕ) (sock : List UInt8) (packets : List Packet) (t : ℕ) : Prop :=
  (∃ p ∈ packets, p.due ≤ t) ∨ (sock ≠ [] ∧ now ≤ t)

section Coming

variable {now t : ℕ} {sock : List UInt8} {packets : List Packet}

theorem Coming.now_le (h : Coming now sock packets t) (hdue : ∀ p ∈ packets, now ≤ p.due) :
    now ≤ t := by
  rcases h with ⟨p, hp, hle⟩ | ⟨-, hle⟩
  · exact (hdue p hp).trans hle
  · exact hle

theorem Coming.arrive {p : Packet} (h : Coming now sock (p :: packets) t) (hdue : now ≤ p.due) :
    Coming now (sock ++ p.msg.bytes) packets t := by
  have hne : p.msg.bytes ≠ [] := by
    apply List.ne_nil_of_length_pos
    rw [p.msg.size]
    decide
  rcases h with ⟨q, hq, hle⟩ | ⟨hsock, hle⟩
  · rcases List.mem_cons.mp hq with rfl | hq
    · exact .inr ⟨List.append_ne_nil_of_right_ne_nil _ hne, hdue.trans hle⟩
    · exact .inl ⟨q, hq, hle⟩
  · exact .inr ⟨List.append_ne_nil_of_left_ne_nil hsock _, hle⟩

theorem Coming.tick (h : Coming now [] packets t) : Coming (now+1) [] packets t := by
  rcases h with hpacket | ⟨hsock, -⟩
  · exact .inl hpacket
  · exact absurd rfl hsock

theorem Coming.append (h : Coming now sock packets t) (more : List Packet) :
    Coming now sock (packets ++ more) t := by
  rcases h with ⟨p, hp, hle⟩ | hsock
  · exact .inl ⟨p, List.mem_append_left _ hp, hle⟩
  · exact .inr hsock

theorem coming_sent {L : ℕ} {m : Msg} (h : now+L ≤ t) :
    Coming now sock (packets ++ [⟨m, now+L⟩]) t :=
  .inl ⟨_, List.mem_append_right _ (List.mem_singleton_self _), h⟩

/-- A read takes a message that has arrived, or one that is on its way is still coming. -/
theorem Coming.read (h : Coming now sock packets t) (sock' : List UInt8) :
    Coming now sock' packets t ∨ now ≤ t := by
  rcases h with hpacket | ⟨-, hle⟩
  · exact .inl (.inl hpacket)
  · exact .inr hle

end Coming

/-! The invariant. -/

/-- An unanswered heartbeat of time `f` is on its way to the server, or its echo is on its way
back. -/
def Answered (L : ℕ) (s : System) (f : ℕ) : Prop :=
  Coming s.now s.serverSock s.toServer (f+L) ∨ Coming s.now s.clientSock s.toClient (f+2*L)

/-- The server last heard of the client at `r`: a heartbeat is on its way, or the client will send
one soon. -/
def Fed (L : ℕ) (s : System) (r : ℕ) : Prop :=
  Coming s.now s.serverSock s.toServer (r+t1+2*L) ∨ s.clientWake ≤ r+t1+L

/-- Both clocks against the messages on their way; `r` is when the server last heard of the client,
and when it last sent. -/
structure Timely (L : ℕ) (s : System) (r : ℕ) : Prop where
  dueClient : ∀ p ∈ s.toClient, s.now ≤ p.due ∧ p.due ≤ r+L
  dueServer : ∀ p ∈ s.toServer, s.now ≤ p.due
  clientWake_ge : s.now ≤ s.clientWake
  clientWake_le : s.clientWake ≤ s.now+t1
  heartbeats_le : s.client.heartbeats ≤ 3
  answered : s.client.heartbeats = 0 ∨
    ∃ f, s.clientWake = f+t2*s.client.heartbeats ∧ Answered L s f
  last_le : r ≤ s.now
  echo : s.clientSock ≠ [] → s.now ≤ r+L
  missed_le : s.server.missedHeartbeats ≤ 3
  serverWake_eq : s.serverWake = r+(t1+t2)+t2*s.server.missedHeartbeats
  serverWake_ge : s.now ≤ s.serverWake
  fed : Fed L s r
  up : s.halted = false

section Moves

variable {L r : ℕ} {s s' : System} (ht : Timely L s r)
include ht

theorem timely_tick (h : move L s .tick = some s') : Timely L s' r := by
  obtain ⟨hclient, hserver, hcw, hsw, hdc, hds, rfl⟩ := tick_cases h
  refine { ht with
    dueClient := fun p hp => ⟨hdc p hp, (ht.dueClient p hp).2⟩
    dueServer := hds
    clientWake_ge := hcw
    clientWake_le := ht.clientWake_le.trans (Nat.le_succ _)
    last_le := ht.last_le.trans (Nat.le_succ _)
    serverWake_ge := hsw
    answered := ?_
    echo := fun hne => absurd hclient hne
    fed := ?_ }
  · refine ht.answered.imp_right fun ⟨f, hwake, hans⟩ => ⟨f, hwake, ?_⟩
    unfold Answered at *
    rw [hclient, hserver] at hans
    change Coming (s.now+1) s.serverSock _ _ ∨ Coming (s.now+1) s.clientSock _ _
    rw [hclient, hserver]
    exact hans.imp Coming.tick Coming.tick
  · have hfed := ht.fed
    unfold Fed at *
    rw [hserver] at hfed
    change Coming (s.now+1) s.serverSock _ _ ∨ _
    rw [hserver]
    exact hfed.imp_left Coming.tick

theorem timely_arriveClient (h : move L s .arriveClient = some s') : Timely L s' r := by
  obtain ⟨p, ps, hps, rfl⟩ := (arrive_cases h).1 rfl
  have hmem : ∀ q ∈ ps, q ∈ s.toClient := fun q hq => hps ▸ List.mem_cons_of_mem p hq
  obtain ⟨hdue, hdue'⟩ := ht.dueClient p (hps ▸ List.mem_cons_self)
  refine { ht with
    dueClient := fun q hq => ht.dueClient q (hmem q hq)
    answered := ?_
    echo := fun _ => hdue.trans hdue'
    fed := ht.fed }
  refine ht.answered.imp_right fun ⟨f, hwake, hans⟩ => ⟨f, hwake, ?_⟩
  unfold Answered at *
  rw [hps] at hans
  exact hans.imp_right fun hc => hc.arrive hdue

theorem timely_arriveServer (h : move L s .arriveServer = some s') : Timely L s' r := by
  obtain ⟨p, ps, hps, rfl⟩ := (arrive_cases h).2 rfl
  have hmem : ∀ q ∈ ps, q ∈ s.toServer := fun q hq => hps ▸ List.mem_cons_of_mem p hq
  have hdue := ht.dueServer p (hps ▸ List.mem_cons_self)
  refine { ht with
    dueServer := fun q hq => ht.dueServer q (hmem q hq)
    answered := ?_
    fed := ?_ }
  · refine ht.answered.imp_right fun ⟨f, hwake, hans⟩ => ⟨f, hwake, ?_⟩
    unfold Answered at *
    rw [hps] at hans
    exact hans.imp_left fun hc => hc.arrive hdue
  · have hfed := ht.fed
    unfold Fed at *
    rw [hps] at hfed
    exact hfed.imp_left fun hc => hc.arrive hdue

/-- The client's third heartbeat is answered before its time is over. -/
theorem client_alive (hL : 2*L < 3*t2) (hwake : s.clientWake ≤ s.now) :
    s.client.heartbeats+1 ≤ 3 := by
  have hle := ht.heartbeats_le
  rcases ht.answered with hzero | ⟨f, heq, hans⟩
  · omega
  · have hnow : s.now ≤ f+2*L := by
      rcases hans with hserver | hclient
      · have hserver' := hserver.now_le ht.dueServer
        omega
      · exact hclient.now_le fun p hp => (ht.dueClient p hp).1
    unfold t2 at *
    omega

theorem server_alive (hL : 2*L < 3*t2) (hwake : s.serverWake ≤ s.now) :
    s.server.missedHeartbeats+1 ≤ 3 := by
  have hle := ht.missed_le
  have heq := ht.serverWake_eq
  have hclient := ht.clientWake_ge
  have hnow : s.now ≤ r+t1+2*L := by
    rcases ht.fed with hcoming | hsoon
    · exact hcoming.now_le ht.dueServer
    · omega
  unfold t1 t2 at *
  omega

theorem timely_clientTurn (hL : 2*L < 3*t2) (hw : Whole s)
    (h : move L s .clientTurn = some s') : Timely L s' r := by
  rcases clientTurn_cases hw h with ⟨c, ms, hsock, -, hbeats, rfl⟩ | ⟨hwake, hdead⟩ |
    ⟨c, m, hwake, -, hbeats, hle, -, rfl⟩
  -- an echo: the next heartbeat is `T1` away
  · have hecho := ht.echo hsock
    exact { ht with
      clientWake_ge := Nat.le_add_right _ _
      clientWake_le := le_rfl
      heartbeats_le := hbeats.trans_le (Nat.zero_le _)
      answered := .inl hbeats
      echo := fun _ => hecho
      fed := by
        rcases ht.fed with hcoming | -
        · exact .inl hcoming
        · right
          change s.now+t1 ≤ r+t1+L
          omega }
  · have halive := client_alive ht hL hwake
    omega
  -- a heartbeat
  · have hnow : s.clientWake = s.now := le_antisymm hwake ht.clientWake_ge
    refine { ht with
      dueServer := ?_
      clientWake_ge := Nat.le_add_right _ _
      clientWake_le := Nat.add_le_add_left (by decide) _
      heartbeats_le := hle
      answered := .inr ?_
      fed := .inl ?_ }
    · intro p hp
      rcases List.mem_append.mp hp with hp | hp
      · exact ht.dueServer p hp
      · rw [List.mem_singleton.mp hp]
        exact Nat.le_add_right _ _
    · change ∃ f, s.now+t2 = f+t2*c.heartbeats ∧ _
      rcases ht.answered with hzero | ⟨f, heq, hans⟩
      · refine ⟨s.now, ?_, .inl (coming_sent le_rfl)⟩
        rw [hbeats, hzero]
        omega
      · refine ⟨f, ?_, hans.imp_left fun hc => hc.append _⟩
        rw [hbeats, Nat.mul_add, ← Nat.add_assoc, ← heq, hnow, Nat.mul_one]
    · rcases ht.fed with hcoming | hsoon
      · exact hcoming.append _
      · have hsent : s.now+L ≤ r+t1+2*L := by omega
        exact coming_sent hsent

theorem timely_serverTurn (hL : 2*L < 3*t2) (hw : Whole s)
    (h : move L s .serverTurn = some s') : ∃ r', Timely L s' r' := by
  rcases serverTurn_cases hw h with ⟨c, m, ms, hsock, -, hmissed, -, rfl⟩ | ⟨hwake, hdead⟩ |
    ⟨c, hwake, -, hmissed, hle, rfl⟩
  -- a heartbeat: its echo is sent, and the server has heard of the client now
  · refine ⟨s.now, ?_⟩
    have hlast := ht.last_le
    exact { ht with
      dueClient := by
        intro p hp
        rcases List.mem_append.mp hp with hp | hp
        · obtain ⟨hge, hle⟩ := ht.dueClient p hp
          exact ⟨hge, by omega⟩
        · rw [List.mem_singleton.mp hp]
          exact ⟨Nat.le_add_right _ _, le_rfl⟩
      answered := by
        refine ht.answered.imp_right fun ⟨f, heq, hans⟩ => ⟨f, heq, ?_⟩
        rcases hans with hserver | hclient
        · rcases hserver.read (stream ms) with hcoming | hnow
          · exact .inl hcoming
          · have hsent : s.now+L ≤ f+2*L := by omega
            exact .inr (coming_sent hsent)
        · exact .inr (hclient.append _)
      last_le := le_rfl
      echo := fun _ => Nat.le_add_right _ _
      missed_le := hmissed.trans_le (Nat.zero_le _)
      serverWake_eq := by
        change s.now+(t1+t2) = s.now+(t1+t2)+t2*c.missedHeartbeats
        rw [hmissed]
        rfl
      serverWake_ge := Nat.le_add_right _ _
      fed := .inr (ht.clientWake_le.trans (Nat.le_add_right _ _)) }
  · have halive := server_alive ht hL hwake
    omega
  -- a missed heartbeat
  · have hnow : s.serverWake = s.now := le_antisymm hwake ht.serverWake_ge
    exact ⟨r, { ht with
      missed_le := hle
      serverWake_eq := by
        change s.now+t2 = r+(t1+t2)+t2*c.missedHeartbeats
        rw [hmissed, Nat.mul_add, ← Nat.add_assoc, ← ht.serverWake_eq, hnow, Nat.mul_one]
      serverWake_ge := Nat.le_add_right _ _ }⟩

end Moves

theorem whole_move {L r : ℕ} {s s' : System} {a : Move} (ht : Timely L s r) (hL : 2*L < 3*t2)
    (hw : Whole s) (h : move L s a = some s') : Whole s' := by
  cases a with
  | tick =>
    obtain ⟨-, -, -, -, -, -, rfl⟩ := tick_cases h
    exact { hw with }
  | arriveClient =>
    obtain ⟨p, ps, -, rfl⟩ := (arrive_cases h).1 rfl
    obtain ⟨ms, hms⟩ := hw.clientSock
    refine { hw with clientSock := ⟨ms ++ [p.msg], ?_⟩ }
    rw [stream_snoc, ← hms]
  | arriveServer =>
    obtain ⟨p, ps, hps, rfl⟩ := (arrive_cases h).2 rfl
    obtain ⟨ms, hms, htypes⟩ := hw.serverSock
    have htype := hw.toServer p (hps ▸ List.mem_cons_self)
    refine { hw with
      serverSock := ⟨ms ++ [p.msg], by rw [stream_snoc, ← hms], fun m hm => ?_⟩
      toServer := fun q hq => hw.toServer q (hps ▸ List.mem_cons_of_mem p hq) }
    rcases List.mem_append.mp hm with hm | hm
    · exact htypes m hm
    · rwa [List.mem_singleton.mp hm]
  | clientTurn =>
    rcases clientTurn_cases hw h with ⟨c, ms, -, hcnt, -, rfl⟩ | ⟨hwake, hdead⟩ |
      ⟨c, m, -, hcnt, -, -, htype, rfl⟩
    · exact { hw with clientCnt := hcnt, clientSock := ⟨ms, rfl⟩ }
    · have halive := client_alive ht hL hwake
      omega
    · refine { hw with clientCnt := hcnt, toServer := fun p hp => ?_ }
      rcases List.mem_append.mp hp with hp | hp
      · exact hw.toServer p hp
      · rwa [List.mem_singleton.mp hp]
  | serverTurn =>
    rcases serverTurn_cases hw h with ⟨c, m, ms, -, hcnt, -, htypes, rfl⟩ | ⟨hwake, hdead⟩ |
      ⟨c, -, hcnt, -, -, rfl⟩
    · exact { hw with serverCnt := hcnt, serverSock := ⟨ms, rfl, htypes⟩ }
    · have halive := server_alive ht hL hwake
      omega
    · exact { hw with serverCnt := hcnt }

/-- Every move keeps the clocks in step with the messages. -/
theorem timely_move {L r : ℕ} {s s' : System} {a : Move} (ht : Timely L s r) (hL : 2*L < 3*t2)
    (hw : Whole s) (h : move L s a = some s') : ∃ r', Timely L s' r' := by
  cases a with
  | tick => exact ⟨r, timely_tick ht h⟩
  | arriveClient => exact ⟨r, timely_arriveClient ht h⟩
  | arriveServer => exact ⟨r, timely_arriveServer ht h⟩
  | clientTurn => exact ⟨r, timely_clientTurn ht hL hw h⟩
  | serverTurn => exact timely_serverTurn ht hL hw h

theorem whole_boot (client server : Msg) : Whole (boot client server) where
  clientCnt := rfl
  clientSock := ⟨[], rfl⟩
  serverCnt := rfl
  serverSock := ⟨[], rfl, fun _ hm => absurd hm List.not_mem_nil⟩
  toServer := fun _ hp => absurd hp List.not_mem_nil

theorem timely_boot (L : ℕ) (client server : Msg) : Timely L (boot client server) 0 where
  dueClient := fun _ hp => absurd hp List.not_mem_nil
  dueServer := fun _ hp => absurd hp List.not_mem_nil
  clientWake_ge := Nat.zero_le _
  clientWake_le := by
    change t1 ≤ 0+t1
    omega
  heartbeats_le := Nat.zero_le _
  answered := .inl rfl
  last_le := le_rfl
  echo := fun hne => absurd rfl hne
  missed_le := Nat.zero_le _
  serverWake_eq := rfl
  serverWake_ge := Nat.zero_le _
  fed := .inr (by
    change t1 ≤ 0+t1+L
    omega)
  up := rfl

/-- With `2*L < 3*T2` neither program ever takes the connection for dead. -/
theorem never_dead (L : ℕ) (hL : 2*L < 3*t2) (client server : Msg) (s : System)
    (h : Reachable (move L) (boot client server) s) :
    s.client.heartbeats ≤ 3 ∧ s.server.missedHeartbeats ≤ 3 ∧ s.halted = false := by
  have hinv : Whole s ∧ ∃ r, Timely L s r := by
    refine Reachable.invariant (I := fun s => Whole s ∧ ∃ r, Timely L s r)
      (fun s a s' hs hmove => ?_) h
      ⟨whole_boot client server, 0, timely_boot L client server⟩
    obtain ⟨hw, r, ht⟩ := hs
    exact ⟨whole_move ht hL hw hmove, timely_move ht hL hw hmove⟩
  obtain ⟨-, r, ht⟩ := hinv
  exact ⟨ht.heartbeats_le, ht.missed_le, ht.up⟩

/-- With the longest delay allowed: the first heartbeat and its echo. -/
theorem never_dead_first_heartbeat :
    ∃ s, exec (move 14) (boot zeroMsg zeroMsg) (List.replicate 60 Move.tick ++ [Move.clientTurn] ++
        List.replicate 10 Move.tick ++ [Move.clientTurn, Move.serverTurn] ++
        List.replicate 4 Move.tick ++ [Move.arriveServer, Move.serverTurn, Move.arriveClient,
          Move.clientTurn, Move.arriveServer]) = some s ∧
      s.client.heartbeats ≤ 3 ∧ s.server.missedHeartbeats ≤ 3 ∧ s.halted = false := by
  have hsome : (exec (move 14) (boot zeroMsg zeroMsg) (List.replicate 60 Move.tick ++
      [Move.clientTurn] ++ List.replicate 10 Move.tick ++ [Move.clientTurn, Move.serverTurn] ++
      List.replicate 4 Move.tick ++ [Move.arriveServer, Move.serverTurn, Move.arriveClient,
        Move.clientTurn, Move.arriveServer])).isSome := by
    decide +kernel
  obtain ⟨s, hs⟩ := Option.isSome_iff_exists.mp hsome
  exact ⟨s, hs, never_dead 14 (by decide) zeroMsg zeroMsg s (Reachable.of_exec hs)⟩

/-- A program that has something to do can take its turn. -/
theorem clientTurn_isSome (L : ℕ) {s : System} (hup : s.halted = false)
    (h : s.clientSock ≠ [] ∨ s.clientWake ≤ s.now) : (move L s .clientTurn).isSome := by
  obtain ⟨⟨round, sock⟩, hround⟩ : ∃ r, clientRound s = some r := by
    unfold clientRound
    by_cases hsock : s.clientSock ≠ []
    · exact ⟨_, if_pos hsock⟩
    · rw [if_neg hsock, if_pos (h.resolve_left hsock)]
      exact ⟨_, rfl⟩
  cases round <;> simp [move, hup, hround]

theorem serverTurn_isSome (L : ℕ) {s : System} (hup : s.halted = false)
    (h : s.serverSock ≠ [] ∨ s.serverWake ≤ s.now) : (move L s .serverTurn).isSome := by
  obtain ⟨⟨round, sock⟩, hround⟩ : ∃ r, serverRound s = some r := by
    unfold serverRound
    by_cases hsock : s.serverSock ≠ []
    · exact ⟨_, if_pos hsock⟩
    · rw [if_neg hsock, if_pos (h.resolve_left hsock)]
      exact ⟨_, rfl⟩
  cases round <;> simp [move, hup, hround]

/-- The system is never stuck: a program has something to do, or a message can arrive, or a second
can pass. -/
theorem exists_move (L : ℕ) {s : System} (hup : s.halted = false) :
    ∃ a, (move L s a).isSome := by
  by_cases hclient : s.clientSock ≠ [] ∨ s.clientWake ≤ s.now
  · exact ⟨.clientTurn, clientTurn_isSome L hup hclient⟩
  by_cases hserver : s.serverSock ≠ [] ∨ s.serverWake ≤ s.now
  · exact ⟨.serverTurn, serverTurn_isSome L hup hserver⟩
  cases hc : s.toClient with
  | cons p ps => exact ⟨.arriveClient, by simp [move, hup, hc]⟩
  | nil =>
    cases hs : s.toServer with
    | cons p ps => exact ⟨.arriveServer, by simp [move, hup, hs]⟩
    | nil =>
      refine ⟨.tick, ?_⟩
      push Not at hclient hserver
      have hidle : idle s = true := by
        simp [idle, hclient, hserver, hc, hs]
      simp [move, hup, hidle]

end LinuxPrograms.HeartBeat1
