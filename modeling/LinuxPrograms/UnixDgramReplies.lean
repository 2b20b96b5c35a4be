import LinuxPrograms.UnixDgram

/-! What the clients of `unixDgram` print: the answers to their own arguments, in order, whatever
the other clients do. -/
namespace LinuxPrograms.UnixDgram
open Lib

variable {room : ℕ} {s s' : State} {a : Act} {ms : List (List UInt8)} {i : ℕ} {c : Client}

/-- What the server answers. -/
def reply (m : List UInt8) : List UInt8 := (receive m).map toupper

/-- What a client prints for its first arguments. -/
def responses (done : List (List UInt8)) : List (ℕ × List UInt8) :=
  (done.zipIdx 1).map fun p => (p.2, shown (reply p.1))

theorem responses_concat (done : List (List UInt8)) (m : List UInt8) :
    responses (done ++ [m]) = responses done ++ [(done.length+1, shown (reply m))] := by
  rw [responses, List.zipIdx_append, List.map_append, Nat.add_comm 1]
  rfl

/-- The answer is not cut off again. -/
theorem receive_reply (m : List UInt8) : receive (reply m) = reply m := by
  refine List.take_of_length_le ?_
  rw [reply, List.length_map, receive, List.length_take]
  exact Nat.min_le_left _ _

/-! On their way. -/

/-- What the server is about to send to a client. -/
def ServerPc.answers (i : ℕ) : ServerPc → List (List UInt8)
  | .send claddr buf => if claddr = i then [buf] else []
  | _ => []

/-- The answers to the requests of a client that wait at the server's socket. -/
def asked (i : ℕ) (inbox : List (ℕ × List UInt8)) : List (List UInt8) :=
  (inbox.filter fun p => p.1 = i).map fun p => reply p.2

/-- All answers to a client that are on their way. -/
def State.flight (s : State) (i : ℕ) (c : Client) : List (List UInt8) :=
  c.inbox ++ (s.server.answers i ++ asked i s.inbox)

theorem asked_cons_self (m : List UInt8) (inbox : List (ℕ × List UInt8)) :
    asked i ((i, m) :: inbox) = reply m :: asked i inbox := by
  rw [asked, List.filter_cons, if_pos (by exact decide_eq_true rfl)]
  rfl

theorem asked_cons_of_ne {j : ℕ} (hj : j ≠ i) (m : List UInt8) (inbox : List (ℕ × List UInt8)) :
    asked i ((j, m) :: inbox) = asked i inbox := by
  rw [asked, List.filter_cons, if_neg (by exact fun h => hj (of_decide_eq_true h))]
  rfl

theorem asked_concat_self (m : List UInt8) (inbox : List (ℕ × List UInt8)) :
    asked i (inbox ++ [(i, m)]) = asked i inbox ++ [reply m] := by
  rw [asked, List.filter_append, List.map_append]
  congr 1
  exact asked_cons_self m []

theorem asked_concat_of_ne {j : ℕ} (hj : j ≠ i) (m : List UInt8) (inbox : List (ℕ × List UInt8)) :
    asked i (inbox ++ [(j, m)]) = asked i inbox := by
  have hnone : asked i [(j, m)] = [] := asked_cons_of_ne hj m []
  rw [asked, List.filter_append, List.map_append]
  exact (congrArg _ hnone).trans (List.append_nil _)

/-- What a client with arguments `ms` has done, and what is on its way to it. -/
def Client.Follows (alive : Bool) (ms flight : List (List UInt8)) (c : Client) : Prop :=
  ∃ done, c.printed = responses done ∧ c.j = done.length+1 ∧
    match c.pc with
    | .send => ms = done ++ c.argv ∧ flight = []
    | .wait => ∃ m, ms = done ++ m :: c.argv ∧ (flight = [reply m] ∨ alive = false ∧ flight = [])
    | .exited => ms = done ∧ flight = []
    | .failed => done <+: ms

theorem Client.Follows.isPrefix {alive : Bool} {flight : List (List UInt8)}
    (h : c.Follows alive ms flight) :
    ∃ done, c.printed = responses done ∧ c.j = done.length+1 ∧ done <+: ms := by
  obtain ⟨done, hprinted, hj, h⟩ := h
  refine ⟨done, hprinted, hj, ?_⟩
  split at h
  · exact ⟨_, h.1.symm⟩
  · obtain ⟨m, hms, -⟩ := h
    exact ⟨_, hms.symm⟩
  · exact h.1 ▸ List.prefix_rfl
  · exact h

section Follows

variable {alive : Bool} {flight : List (List UInt8)}

theorem Client.Follows.exit (h : c.Follows alive ms flight) (hpc : c.pc = .send)
    (hargv : c.argv = []) : ({ c with pc := .exited } : Client).Follows alive ms flight := by
  obtain ⟨done, hprinted, hj, h⟩ := h
  rw [hpc] at h
  refine ⟨done, hprinted, hj, ?_, h.2⟩
  rw [h.1, hargv, List.append_nil]

theorem Client.Follows.request {m : List UInt8} {argv : List (List UInt8)}
    (h : c.Follows alive ms flight) (hpc : c.pc = .send) (hargv : c.argv = m :: argv) :
    ({ c with pc := .wait, argv := argv } : Client).Follows alive ms (flight ++ [reply m]) := by
  obtain ⟨done, hprinted, hj, h⟩ := h
  rw [hpc] at h
  refine ⟨done, hprinted, hj, m, by rw [h.1, hargv], .inl ?_⟩
  rw [h.2]
  rfl

/-- There is an answer, so it is the one to the last argument that was sent. -/
theorem Client.Follows.response {datagram : List UInt8}
    (h : c.Follows alive ms (datagram :: flight)) (hpc : c.pc = .wait) (inbox : List (List UInt8)) :
    ({ c with
      pc := .send
      j := c.j+1
      inbox := inbox
      printed := c.printed ++ [(c.j, shown (UnixDgram.receive datagram))] } : Client).Follows
      alive ms flight := by
  obtain ⟨done, hprinted, hj, h⟩ := h
  rw [hpc] at h
  obtain ⟨m, hms, hflight⟩ := h
  obtain ⟨hdatagram, hrest⟩ : datagram = reply m ∧ flight = [] := by
    rcases hflight with hflight | ⟨-, hflight⟩
    · exact List.cons_eq_cons.mp hflight
    · cases hflight
  refine ⟨done ++ [m], ?_, ?_, ?_, hrest⟩
  · dsimp only
    rw [hprinted, hj, hdatagram, receive_reply, responses_concat]
  · dsimp only
    rw [hj, List.length_append, List.length_singleton]
  · rw [hms, List.append_assoc]
    rfl

end Follows

/-- The clients and their arguments. -/
structure Inv (messages : List (List (List UInt8))) (s : State) : Prop where
  count : s.clients.length = messages.length
  follows : ∀ (i : ℕ) (c : Client) (ms : List (List UInt8)), s.clients[i]? = some c →
    messages[i]? = some ms → c.Follows s.server.alive ms (s.flight i c)
  senders : ∀ p ∈ s.inbox, p.1 < s.clients.length
  receiver : ∀ claddr buf, s.server = .send claddr buf → claddr < s.clients.length
  fatal : ∀ claddr, s.server = .fatal claddr →
    ∃ c, s.clients[claddr]? = some c ∧ c.pc = .failed

theorem setup_inv (messages : List (List (List UInt8))) : Inv messages (setup messages) where
  count := by rw [setup, List.length_map]
  follows := by
    intro i c ms hi hms
    rw [setup, List.getElem?_map, hms, Option.map_some] at hi
    cases hi
    exact ⟨[], rfl, rfl, rfl, rfl⟩
  senders := fun _ h => (List.not_mem_nil h).elim
  receiver := nofun
  fatal := nofun

variable {messages : List (List (List UInt8))}

/-- One client moves; what is on its way to the others stays. -/
theorem Inv.move (hs : Inv messages s) {c' : Client} {server : ServerPc}
    {inbox : List (ℕ × List UInt8)} (hi : s.clients[i]? = some c) (hopen : c.closed = false)
    (hfollows : ∀ ms, messages[i]? = some ms → c.Follows s.server.alive ms (s.flight i c) →
      c'.Follows server.alive ms (c'.inbox ++ (server.answers i ++ asked i inbox)))
    (hothers : ∀ j ≠ i, server.answers j ++ asked j inbox =
      s.server.answers j ++ asked j s.inbox)
    (halive : server.alive = s.server.alive)
    (hsenders : ∀ p ∈ inbox, p ∈ s.inbox ∨ p.1 = i)
    (hserver : server = s.server ∨ server = .recv) :
    Inv messages { s with clients := s.clients.set i c', inbox := inbox, server := server } where
  count := by rw [List.length_set, hs.count]
  follows := by
    intro j c'' ms hj hms
    rcases getElem?_set_cases hj with ⟨rfl, rfl⟩ | ⟨hne, hj⟩
    · exact hfollows ms hms (hs.follows _ _ ms hi hms)
    · have hold := hs.follows j c'' ms hj hms
      unfold State.flight at hold ⊢
      dsimp only
      rw [hothers j hne, halive]
      exact hold
  senders := by
    intro p hp
    rw [List.length_set]
    rcases hsenders p hp with hp | hp
    · exact hs.senders p hp
    · rw [hp]
      exact (List.getElem?_eq_some_iff.mp hi).1
  receiver := by
    intro claddr buf hpc
    rw [List.length_set]
    rcases hserver with rfl | rfl
    · exact hs.receiver claddr buf hpc
    · cases hpc
  fatal := by
    intro claddr hpc
    rcases hserver with rfl | rfl
    · obtain ⟨c₀, hc₀, hfailed⟩ := hs.fatal claddr hpc
      have hne : i ≠ claddr := by
        rintro rfl
        rw [hi] at hc₀
        cases hc₀
        rw [Client.closed, hfailed] at hopen
        cases hopen
      exact ⟨c₀, by rw [List.getElem?_set_ne hne]; exact hc₀, hfailed⟩
    · cases hpc

/-- An answer is lost with the server. -/
theorem Client.Follows.lose {alive : Bool} {here lost queued : List (List UInt8)}
    (h : c.Follows alive ms (here ++ (lost ++ queued))) :
    c.Follows false ms (here ++ ([] ++ queued)) := by
  obtain ⟨done, hprinted, hj, h⟩ := h
  refine ⟨done, hprinted, hj, ?_⟩
  have hnil : here ++ (lost ++ queued) = [] → here ++ ([] ++ queued) = [] := by
    intro hnil
    obtain ⟨rfl, hnil⟩ := List.append_eq_nil_iff.mp hnil
    exact (List.append_eq_nil_iff.mp (List.append_eq_nil_iff.mp hnil).2).2
  cases hpc : c.pc with
  | send =>
    rw [hpc] at h
    exact ⟨h.1, hnil h.2⟩
  | wait =>
    rw [hpc] at h
    obtain ⟨m, hms, hflight⟩ := h
    refine ⟨m, hms, ?_⟩
    rcases hflight with hflight | ⟨-, hflight⟩
    · cases lost with
      | nil => exact .inl hflight
      | cons l lost =>
        refine .inr ⟨rfl, List.length_eq_zero_iff.mp ?_⟩
        have hlength := congrArg List.length hflight
        rw [List.length_append, List.length_append, List.length_cons, List.length_singleton]
          at hlength
        rw [List.length_append, List.nil_append]
        omega
    · exact .inr ⟨rfl, hnil hflight⟩
  | exited =>
    rw [hpc] at h
    exact ⟨h.1, hnil h.2⟩
  | failed =>
    rw [hpc] at h
    exact h

/-- The server ends. -/
theorem Inv.stop (hs : Inv messages s) {server : ServerPc} (hstop : server.alive = false)
    (hfatal : ∀ claddr, server = .fatal claddr →
      ∃ c, s.clients[claddr]? = some c ∧ c.pc = .failed) :
    Inv messages { s with server := server } where
  count := hs.count
  follows := by
    intro i c ms hi hms
    have hanswers : server.answers i = [] := by
      cases server with
      | recv | send => cases hstop
      | fatal | killed => rfl
    unfold State.flight
    dsimp only
    rw [hstop, hanswers]
    exact (hs.follows i c ms hi hms).lose
  senders := hs.senders
  receiver := by
    intro claddr buf hpc
    cases hpc
    cases hstop
  fatal := hfatal

/-- What the server is about to send is on its way. -/
theorem Inv.receiver_failed (hs : Inv messages s) {claddr : ℕ} {buf : List UInt8}
    (hpc : s.server = .send claddr buf) (hi : s.clients[claddr]? = some c)
    (hclosed : c.closed = true) : c.pc = .failed := by
  have hlt := (List.getElem?_eq_some_iff.mp hi).1
  rw [hs.count] at hlt
  obtain ⟨done, -, -, h⟩ := hs.follows claddr c _ hi (List.getElem?_eq_getElem hlt)
  rcases Bool.or_eq_true_iff.mp hclosed with hexited | hfailed
  · rw [of_decide_eq_true hexited] at h
    have hflight := (List.append_eq_nil_iff.mp h.2).2
    rw [hpc, ServerPc.answers, if_pos rfl] at hflight
    cases hflight
  · exact of_decide_eq_true hfailed

/-- A request leaves the server's socket, and its answer is in the server's buffer. -/
theorem Inv.receive (hs : Inv messages s) {claddr : ℕ} {datagram : List UInt8}
    {inbox : List (ℕ × List UInt8)} (hpc : s.server = .recv)
    (hinbox : s.inbox = (claddr, datagram) :: inbox) :
    Inv messages { s with server := .send claddr (reply datagram), inbox := inbox } := by
  have hlt := hs.senders (claddr, datagram) (by rw [hinbox]; exact List.mem_cons_self)
  have hsame : ∀ i, (ServerPc.send claddr (reply datagram)).answers i ++ asked i inbox =
      s.server.answers i ++ asked i s.inbox := by
    intro i
    rw [hpc, hinbox]
    dsimp only [ServerPc.answers]
    rw [List.nil_append]
    split
    · next h =>
      rw [h, asked_cons_self]
      rfl
    · next h => rw [asked_cons_of_ne h, List.nil_append]
  refine ⟨hs.count, ?_, ?_, ?_, fun _ h => by cases h⟩
  · intro i c ms hi hms
    have hold := hs.follows i c ms hi hms
    unfold State.flight at hold ⊢
    rw [hpc] at hold hsame
    exact (hsame i).symm ▸ hold
  · intro p hp
    exact hs.senders p (by rw [hinbox]; exact List.mem_cons_of_mem _ hp)
  · intro i buf h
    cases h
    exact hlt

theorem Step.inv (h : Step room s s') (hs : Inv messages s) : Inv messages s' := by
  cases h with
  | exit hi hpc hargv =>
    refine hs.move hi (by rw [Client.closed, hpc]; rfl) ?_ (fun _ _ => rfl) rfl
      (fun _ hp => .inl hp) (.inl rfl)
    exact fun ms _ hfollows => hfollows.exit hpc hargv
  | @request i c m argv hi hpc hargv hserver =>
    refine hs.move hi (by rw [Client.closed, hpc]; rfl) ?_ ?_ rfl ?_ (.inl rfl)
    · intro ms _ hfollows
      have hsent := hfollows.request hpc hargv
      rw [State.flight, List.append_assoc, List.append_assoc] at hsent
      rw [asked_concat_self]
      exact hsent
    · intro j hj
      rw [asked_concat_of_ne (Ne.symm hj)]
    · intro p hp
      rcases List.mem_append.mp hp with hp | hp
      · exact .inl hp
      · exact .inr (congrArg Prod.fst (List.mem_singleton.mp hp))
  | @response i c datagram inbox hi hpc hinbox =>
    refine hs.move hi (by rw [Client.closed, hpc]; rfl) ?_ (fun _ _ => rfl) rfl
      (fun _ hp => .inl hp) (.inl rfl)
    intro ms _ hfollows
    rw [State.flight, hinbox, List.cons_append] at hfollows
    exact hfollows.response hpc inbox
  | clientFail hi hopen =>
    refine hs.move hi hopen ?_ (fun _ _ => rfl) rfl (fun _ hp => .inl hp) (.inl rfl)
    intro ms _ hfollows
    exact hfollows.isPrefix
  | receive hpc hinbox => exact hs.receive hpc hinbox
  | @answer claddr buf c hpc hi hopen =>
    refine hs.move hi hopen ?_ ?_ (by rw [hpc]; rfl) (fun _ hp => .inl hp) (.inr rfl)
    · intro ms _ hfollows
      unfold State.flight at hfollows
      rw [hpc, ServerPc.answers, if_pos rfl, ← List.append_assoc] at hfollows
      exact hfollows
    · intro j hj
      rw [hpc]
      dsimp only [ServerPc.answers]
      rw [if_neg (Ne.symm hj)]
  | fatal hpc hi hclosed =>
    refine hs.stop rfl fun claddr h => ?_
    cases h
    exact ⟨_, hi, hs.receiver_failed hpc hi hclosed⟩
  | serverFail => exact hs.stop rfl fun _ h => by cases h

theorem reachable_inv (h : Reachable (next room) (setup messages) s) : Inv messages s :=
  h.invariant (fun _ _ _ hs h => (next_step h).inv hs) (setup_inv messages)

/-- In every state, also after failures: each client has printed the answers to the first of its own
arguments, numbered from 1, and to all of them once it has exited. The server dies of a `sendto`
only if the client has failed. -/
theorem responses_in_order (h : Reachable (next room) (setup messages) s) :
    (∀ (i : ℕ) (c : Client) (ms : List (List UInt8)), s.clients[i]? = some c →
      messages[i]? = some ms →
      ∃ done, done <+: ms ∧ c.printed = responses done ∧ (c.pc = .exited → done = ms)) ∧
    ∀ claddr, s.server = .fatal claddr →
      ∃ c, s.clients[claddr]? = some c ∧ c.pc = .failed := by
  have hs := reachable_inv h
  refine ⟨fun i c ms hi hms => ?_, hs.fatal⟩
  have hfollows := hs.follows i c ms hi hms
  by_cases hpc : c.pc = .exited
  · obtain ⟨done, hprinted, -, hfollows⟩ := hfollows
    rw [hpc] at hfollows
    exact ⟨done, hfollows.1 ▸ List.prefix_rfl, hprinted, fun _ => hfollows.1.symm⟩
  · obtain ⟨done, hprinted, -, hprefix⟩ := hfollows.isPrefix
    exact ⟨done, hprefix, hprinted, fun h => (hpc h).elim⟩

/-- Two clients with one argument each. -/
def twoClients : List (List (List UInt8)) := [[[97]], [[98]]]

/-- The second client is answered first. -/
def secondState : State :=
  (exec (next 1) (setup twoClients)
    [.clientSend 1, .serverRecv, .clientSend 0, .serverSend, .clientRecv 1]).get rfl

theorem responses_in_order_second :
    (∀ (i : ℕ) (c : Client) (ms : List (List UInt8)), secondState.clients[i]? = some c →
      twoClients[i]? = some ms →
      ∃ done, done <+: ms ∧ c.printed = responses done ∧ (c.pc = .exited → done = ms)) ∧
    ∀ claddr, secondState.server = .fatal claddr →
      ∃ c, secondState.clients[claddr]? = some c ∧ c.pc = .failed :=
  responses_in_order (Reachable.of_exec
    (show exec (next 1) (setup twoClients)
      [.clientSend 1, .serverRecv, .clientSend 0, .serverSend, .clientRecv 1] = some secondState
      from rfl))

/-! At rest. -/

/-- Nobody can move, unless a program fails. -/
def AtRest (room : ℕ) (s : State) : Prop := ∀ a, a.fails = false → next room s a = none

theorem Inv.server_at_rest (hs : Inv messages s) (hrest : AtRest room s)
    (hrun : s.server.alive = true) : s.server = .recv ∧ s.inbox = [] := by
  cases hserver : s.server with
  | recv =>
    refine ⟨rfl, ?_⟩
    cases hinbox : s.inbox with
    | nil => rfl
    | cons p inbox =>
      have hrecv := hrest .serverRecv rfl
      simp only [next, hserver, hinbox] at hrecv
      cases hrecv
  | send claddr buf =>
    have hsend := hrest .serverSend rfl
    simp only [next, hserver] at hsend
    rw [serverSend, List.getElem?_eq_getElem (hs.receiver claddr buf hserver)] at hsend
    cases hsend
  | fatal | killed =>
    rw [hserver] at hrun
    cases hrun

/-- When nothing can move any more and the server has not died, every client that has not failed has
exited, and has printed the answers to all its arguments. -/
theorem responses_at_rest (hroom : 0 < room) (h : Reachable (next room) (setup messages) s)
    (hrest : AtRest room s) (hrun : s.server.alive = true) {ms : List (List UInt8)}
    (hi : s.clients[i]? = some c) (hms : messages[i]? = some ms) (hpc : c.pc ≠ .failed) :
    c.pc = .exited ∧ c.printed = responses ms := by
  have hs := reachable_inv h
  obtain ⟨hserver, hinbox⟩ := hs.server_at_rest hrest hrun
  obtain ⟨done, hprinted, -, hfollows⟩ := hs.follows i c ms hi hms
  cases hc : c.pc with
  | send =>
    have hsend := hrest (.clientSend i) rfl
    rw [next, hi, Option.bind_some] at hsend
    unfold clientSend at hsend
    rw [hc, hrun, hinbox] at hsend
    cases hargv : c.argv with
    | nil =>
      rw [hargv] at hsend
      cases hsend
    | cons m argv =>
      rw [hargv] at hsend
      dsimp only at hsend
      rw [if_neg Bool.false_ne_true.symm, if_pos (by exact hroom)] at hsend
      cases hsend
  | wait =>
    rw [hc, hrun, State.flight, hserver, hinbox] at hfollows
    obtain ⟨m, -, hflight | ⟨hdead, -⟩⟩ := hfollows
    · have hanswer : c.inbox = [reply m] := (List.append_nil _).symm.trans hflight
      have hrecv := hrest (.clientRecv i) rfl
      rw [next, hi, Option.bind_some] at hrecv
      unfold clientRecv at hrecv
      rw [hc, hanswer] at hrecv
      cases hrecv
    · cases hdead
  | exited =>
    rw [hc] at hfollows
    exact ⟨rfl, hfollows.1 ▸ hprinted⟩
  | failed => exact (hpc hc).elim

/-- Both are answered. -/
def answeredRun : List Act :=
  [.clientSend 1, .serverRecv, .clientSend 0, .serverSend, .clientRecv 1, .serverRecv, .serverSend,
    .clientRecv 0, .clientSend 0, .clientSend 1]

def answeredState : State := (exec (next 1) (setup twoClients) answeredRun).get rfl

theorem answeredState_at_rest : AtRest 1 answeredState := by
  intro a ha
  cases a with
  | clientSend i | clientRecv i =>
    match i with
    | 0 | 1 | _+2 => rfl
  | serverRecv | serverSend => rfl
  | clientFail | serverFail => cases ha

theorem responses_at_rest_answered :
    answeredState.clients[0].pc = .exited ∧
      answeredState.clients[0].printed = responses [[97]] :=
  responses_at_rest Nat.one_pos
    (Reachable.of_exec
      (show exec (next 1) (setup twoClients) answeredRun = some answeredState from rfl))
    answeredState_at_rest rfl (show answeredState.clients[0]? = some _ from rfl)
    (show twoClients[0]? = some [[97]] from rfl) (by decide)

/-! Coming to rest. -/

/-- How much a client can still move, and make the server move. -/
def ClientPc.work : ClientPc → ℕ
  | .send => 2
  | .wait => 1
  | .exited | .failed => 0

def Client.work (c : Client) : ℕ := 4*c.argv.length+2*c.inbox.length+c.pc.work

def ServerPc.work : ServerPc → ℕ
  | .recv => 1
  | .send _ _ => 4
  | .fatal _ | .killed => 0

def State.work (s : State) : ℕ :=
  (s.clients.map Client.work).sum+4*s.inbox.length+s.server.work

theorem Step.work (h : Step room s s') : s'.work < s.work := by
  unfold State.work
  cases h with
  | @exit i c hi hpc =>
    have hsum := sum_set Client.work hi { c with pc := .exited }
    have hclient : ({ c with pc := .exited } : Client).work+2 = c.work := by
      unfold Client.work
      rw [hpc]
      rfl
    dsimp only
    omega
  | @request i c m argv hi hpc hargv =>
    have hsum := sum_set Client.work hi { c with pc := .wait, argv := argv }
    have hclient : ({ c with pc := .wait, argv := argv } : Client).work+5 = c.work := by
      unfold Client.work
      rw [hpc, hargv, List.length_cons]
      dsimp only [ClientPc.work]
      omega
    dsimp only
    rw [List.length_append, List.length_singleton]
    omega
  | @response i c datagram inbox hi hpc hinbox =>
    have hclient (printed : List (ℕ × List UInt8)) :
        ({ c with pc := .send, j := c.j+1, inbox := inbox, printed := printed } : Client).work+1 =
          c.work := by
      unfold Client.work
      rw [hpc, hinbox, List.length_cons]
      dsimp only [ClientPc.work]
      omega
    have hsum (printed : List (ℕ × List UInt8)) := sum_set Client.work hi
      { c with pc := .send, j := c.j+1, inbox := inbox, printed := printed }
    specialize hclient (c.printed ++ [(c.j, shown (UnixDgram.receive datagram))])
    specialize hsum (c.printed ++ [(c.j, shown (UnixDgram.receive datagram))])
    dsimp only
    omega
  | @clientFail i c hi hopen =>
    have hsum := sum_set Client.work hi { c with pc := .failed }
    have hclient : ({ c with pc := .failed } : Client).work < c.work := by
      unfold Client.work
      dsimp only [ClientPc.work]
      cases hpc : c.pc with
      | exited | failed =>
        rw [Client.closed, hpc] at hopen
        cases hopen
      | send | wait =>
        dsimp only [ClientPc.work]
        omega
    dsimp only
    omega
  | receive hpc hinbox =>
    rw [hpc, hinbox, List.length_cons]
    dsimp only [ServerPc.work]
    omega
  | @answer claddr buf c hpc hi =>
    have hsum := sum_set Client.work hi { c with inbox := c.inbox ++ [buf] }
    have hclient : ({ c with inbox := c.inbox ++ [buf] } : Client).work = c.work+2 := by
      unfold Client.work
      dsimp only
      rw [List.length_append, List.length_singleton]
      omega
    rw [hpc]
    dsimp only [ServerPc.work]
    omega
  | fatal hpc =>
    rw [hpc]
    dsimp only [ServerPc.work]
    omega
  | serverFail hpc =>
    rcases hpc with hpc | ⟨claddr, buf, hpc⟩
    · rw [hpc]
      dsimp only [ServerPc.work]
      omega
    · rw [hpc]
      dsimp only [ServerPc.work]
      omega

/-- Whatever the order of the steps, the programs come to rest. -/
theorem exchanges_length_le {tr : List (State × Act)}
    (h : Run (next room) (setup messages) tr s) :
    tr.length ≤ (messages.map fun ms => 4*ms.length+2).sum+1 := by
  have hbound := h.length_le_of_measure (I := fun _ => True) State.work
    (fun _ _ _ _ _ => trivial) (fun _ _ _ _ h => (next_step h).work) trivial
  have hsetup : (setup messages).work = (messages.map fun ms => 4*ms.length+2).sum+1 := by
    unfold State.work setup
    rw [List.map_map]
    rfl
  omega

theorem exchanges_length_le_answered :
    (trace (next 1) (setup twoClients) answeredRun).length ≤
      (twoClients.map fun ms => 4*ms.length+2).sum+1 :=
  exchanges_length_le (Run.of_exec
    (show exec (next 1) (setup twoClients) answeredRun = some answeredState from rfl))

end LinuxPrograms.UnixDgram
