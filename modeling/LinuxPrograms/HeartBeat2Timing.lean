import LinuxPrograms.HeartBeat2System

/-! While the line is up and the delay `L` is such that `2*L < 3*T2`, neither program of heartBeat2
takes the connection for dead. -/
namespace LinuxPrograms.HeartBeat2
open Lib

variable {L : ℕ} {s s' : System} {a : Move}

/-! What is on its way. -/

/-- A byte can be read by time `t`: it is on its way, or it has arrived. -/
def Coming (now : ℕ) (inbox : List UInt8) (packets : List Packet) (t : ℕ) : Prop :=
  (∃ p ∈ packets, p.due ≤ t) ∨ (inbox ≠ [] ∧ now ≤ t)

section Coming

variable {now t : ℕ} {inbox : List UInt8} {packets : List Packet}

theorem Coming.now_le (h : Coming now inbox packets t) (hdue : ∀ p ∈ packets, now ≤ p.due) :
    now ≤ t := by
  rcases h with ⟨p, hp, hle⟩ | ⟨-, hle⟩
  · exact (hdue p hp).trans hle
  · exact hle

theorem Coming.arrive {p : Packet} (h : Coming now inbox (p :: packets) t) (hdue : now ≤ p.due) :
    Coming now (inbox ++ [p.byte]) packets t := by
  have hne : inbox ++ [p.byte] ≠ [] := List.append_ne_nil_of_right_ne_nil _ (List.cons_ne_nil _ _)
  rcases h with ⟨q, hq, hle⟩ | ⟨-, hle⟩
  · rcases List.mem_cons.mp hq with rfl | hq
    · exact .inr ⟨hne, hdue.trans hle⟩
    · exact .inl ⟨q, hq, hle⟩
  · exact .inr ⟨hne, hle⟩

theorem Coming.wait {d : ℕ} (h : Coming now inbox packets t) (hinbox : inbox = []) :
    Coming (now+d) inbox packets t := by
  rcases h with hpacket | ⟨hne, -⟩
  · exact .inl hpacket
  · exact (hne hinbox).elim

theorem Coming.append (h : Coming now inbox packets t) (more : List Packet) :
    Coming now inbox (packets ++ more) t := by
  rcases h with ⟨p, hp, hle⟩ | hinbox
  · exact .inl ⟨p, List.mem_append_left _ hp, hle⟩
  · exact .inr hinbox

theorem coming_sent {byte : UInt8} (h : now+L ≤ t) :
    Coming now inbox (packets ++ [⟨byte, now+L⟩]) t :=
  .inl ⟨_, List.mem_append_right _ (List.mem_singleton_self _), h⟩

/-- A read takes a byte that has arrived, or one that is on its way is still coming. -/
theorem Coming.read (h : Coming now inbox packets t) (inbox' : List UInt8) :
    Coming now inbox' packets t ∨ now ≤ t := by
  rcases h with hpacket | ⟨-, hle⟩
  · exact .inl (.inl hpacket)
  · exact .inr hle

end Coming

/-! The invariant. -/

/-- The heartbeat of time `f` is on its way to the server, or its echo is on its way back. -/
def Answered (L : ℕ) (s : System) (f : ℕ) : Prop :=
  Coming s.now s.server.inbox s.toServer (f+L) ∨ Coming s.now s.client.inbox s.toClient (f+2*L)

/-- A heartbeat is on its way to the server, or the client will send one soon. -/
def Fed (L : ℕ) (s : System) : Prop :=
  Coming s.now s.server.inbox s.toServer (s.server.heard+(t1+1)*second+2*L) ∨
    s.client.wake ≤ s.server.heard+(t1+1)*second+L

/-- The messages on their way against both clocks. -/
structure Timely (L : ℕ) (s : System) : Prop where
  dueClient : ∀ p ∈ s.toClient, s.now ≤ p.due ∧ p.due ≤ s.server.heard+L
  dueServer : ∀ p ∈ s.toServer, s.now ≤ p.due
  wake_le : s.client.wake ≤ s.now+(t1+1)*second
  answered : s.client.beats = 0 ∨
    ∃ f, s.client.wake = f+t2*s.client.beats*second ∧ Answered L s f
  echo : s.client.inbox ≠ [] → s.now ≤ s.server.heard+L
  fed : Fed L s
  clientRuns : s.client.ended = false
  serverRuns : s.server.ended = false

theorem timely_boot (L : ℕ) : Timely L boot where
  dueClient := fun _ hp => (List.not_mem_nil hp).elim
  dueServer := fun _ hp => (List.not_mem_nil hp).elim
  wake_le := by decide
  answered := .inl rfl
  echo := fun hne => (hne rfl).elim
  fed := .inr (by
    change t1*second ≤ 0+(t1+1)*second+L
    exact (show t1*second ≤ 0+(t1+1)*second by decide).trans (Nat.le_add_right _ _))
  clientRuns := rfl
  serverRuns := rfl

theorem waits_running {p : Peer} {t : ℕ} (hrun : p.ended = false) (h : p.waits t = true) :
    p.inbox = [] ∧ t ≤ p.wake := by
  rw [Peer.waits, hrun, Bool.false_or, Bool.and_eq_true, List.isEmpty_iff] at h
  exact ⟨h.1, of_decide_eq_true h.2⟩

theorem System.posted_of_up (h : s.cutAt = none) (byte : UInt8) :
    s.posted L byte = [⟨byte, s.now+L⟩] :=
  if_pos h

section Steps

variable (ht : Timely L s)
include ht

theorem Timely.wait {d : ℕ} (hclient : s.client.waits (s.now+d) = true)
    (hserver : s.server.waits (s.now+d) = true) (hdueC : ∀ p ∈ s.toClient, s.now+d ≤ p.due)
    (hdueS : ∀ p ∈ s.toServer, s.now+d ≤ p.due) : Timely L { s with now := s.now+d } := by
  have hinboxC := (waits_running ht.clientRuns hclient).1
  have hinboxS := (waits_running ht.serverRuns hserver).1
  refine { ht with
    dueClient := fun p hp => ⟨hdueC p hp, (ht.dueClient p hp).2⟩
    dueServer := hdueS
    wake_le := ?_
    answered := ?_
    echo := fun hne => (hne hinboxC).elim
    fed := ?_ }
  · have hwake := ht.wake_le
    dsimp only
    omega
  · refine ht.answered.imp_right fun ⟨f, hwake, hans⟩ => ⟨f, hwake, ?_⟩
    exact hans.imp (fun h => h.wait hinboxS) fun h => h.wait hinboxC
  · exact ht.fed.imp_left fun h => h.wait hinboxS

theorem Timely.arriveClient {p : Packet} {ps : List Packet} (hps : s.toClient = p :: ps) :
    Timely L { s with
      toClient := ps, client := { s.client with inbox := s.client.inbox ++ [p.byte] } } := by
  obtain ⟨hdue, hlast⟩ := ht.dueClient p (hps ▸ List.mem_cons_self)
  refine { ht with
    dueClient := fun q hq => ht.dueClient q (hps ▸ List.mem_cons_of_mem p hq)
    answered := ?_
    echo := fun _ => hdue.trans hlast
    fed := ht.fed }
  refine ht.answered.imp_right fun ⟨f, hwake, hans⟩ => ⟨f, hwake, ?_⟩
  unfold Answered at *
  rw [hps] at hans
  exact hans.imp_right fun h => h.arrive hdue

theorem Timely.arriveServer {p : Packet} {ps : List Packet} (hps : s.toServer = p :: ps) :
    Timely L { s with
      toServer := ps, server := { s.server with inbox := s.server.inbox ++ [p.byte] } } := by
  have hdue := ht.dueServer p (hps ▸ List.mem_cons_self)
  refine { ht with
    dueServer := fun q hq => ht.dueServer q (hps ▸ List.mem_cons_of_mem p hq)
    answered := ?_
    fed := ?_ }
  · refine ht.answered.imp_right fun ⟨f, hwake, hans⟩ => ⟨f, hwake, ?_⟩
    unfold Answered at *
    rw [hps] at hans
    exact hans.imp_left fun h => h.arrive hdue
  · have hfed := ht.fed
    unfold Fed at *
    rw [hps] at hfed
    exact hfed.imp_left fun h => h.arrive hdue

/-- An echo is read: the next heartbeat is less than `T1+1` seconds away. -/
theorem Timely.clientHear {byte : UInt8} {inbox : List UInt8}
    (hinbox : s.client.inbox = byte :: inbox) :
    Timely L { s with client := s.client.hear s.now t1 inbox } := by
  have hecho := ht.echo (by rw [hinbox]; exact List.cons_ne_nil _ _)
  have hwake : (s.client.hear s.now t1 inbox).wake ≤ s.now+(t1+1)*second := by
    have hleft := Nat.mod_lt (s.client.wake-s.now) (show second > 0 by decide)
    unfold Peer.hear
    dsimp only
    rw [Nat.add_mul, Nat.one_mul]
    omega
  refine { ht with
    wake_le := hwake
    answered := .inl rfl
    echo := fun _ => hecho
    fed := ?_ }
  rcases ht.fed with hcoming | -
  · exact .inl hcoming
  · right
    dsimp only
    omega

/-- The client's third heartbeat is answered before its time is over. -/
theorem Timely.client_alive (hs : Sound s) (hL : 2*L < 3*t2*second)
    (hwake : s.client.wake ≤ s.now) : s.client.beats+1 ≤ 3 := by
  have hbeats := (hs.client.running ht.clientRuns).1
  by_contra hdead
  have hthree : s.client.beats = 3 := by omega
  rcases ht.answered with hzero | ⟨f, heq, hans⟩
  · omega
  · have hnow : s.now ≤ f+2*L := by
      rcases hans with hserver | hclient
      · have hbefore := hserver.now_le ht.dueServer
        omega
      · exact hclient.now_le fun p hp => (ht.dueClient p hp).1
    rw [hthree, Nat.mul_comm t2 3] at heq
    omega

/-- The server hears of the client before its fourth time-out. -/
theorem Timely.server_alive (hs : Sound s) (hL : 2*L < 3*t2*second)
    (hwake : s.server.wake ≤ s.now) : s.server.beats+1 ≤ 3 := by
  obtain ⟨hbeats, -, hlow, -⟩ := hs.server.running ht.serverRuns
  have hclient := (hs.client.running ht.clientRuns).2.1
  have hnow : s.now ≤ s.server.heard+(t1+1)*second+2*L := by
    rcases ht.fed with hcoming | hsoon
    · exact hcoming.now_le ht.dueServer
    · omega
  by_contra hdead
  have hthree : s.server.beats = 3 := by omega
  rw [hthree] at hlow
  have hbound : (t1+1)*second+3*t2*second ≤ (t1+t2+t2*3)*second := by decide
  omega

/-- A heartbeat is sent. -/
theorem Timely.clientBeat (hs : Sound s) (hup : s.cutAt = none) (hwake : s.client.wake ≤ s.now)
    (hbeats : s.client.beats+1 ≤ 3) :
    Timely L { s with
      client := s.client.miss s.now, toServer := s.toServer ++ s.posted L 0 } := by
  have hnow : s.now = s.client.wake :=
    Nat.le_antisymm (hs.client.running ht.clientRuns).2.1 hwake
  have hmiss : s.client.miss s.now =
      { s.client with beats := s.client.beats+1, wake := s.now+t2*second } := by
    rw [Peer.miss, if_neg (Nat.not_lt.mpr hbeats)]
  rw [s.posted_of_up hup, hmiss]
  refine { ht with
    dueServer := ?_
    wake_le := Nat.add_le_add_left (by decide) _
    answered := .inr ?_
    fed := .inl ?_ }
  · intro p hp
    rcases List.mem_append.mp hp with hp | hp
    · exact ht.dueServer p hp
    · rw [List.mem_singleton.mp hp]
      exact Nat.le_add_right _ _
  · rcases ht.answered with hzero | ⟨f, heq, hans⟩
    · refine ⟨s.now, ?_, .inl (coming_sent (Nat.le_refl _))⟩
      dsimp only
      rw [hzero, Nat.zero_add, Nat.mul_one]
    · refine ⟨f, ?_, hans.imp_left fun h => h.append _⟩
      dsimp only
      rw [Nat.mul_succ, Nat.add_mul]
      omega
  · rcases ht.fed with hcoming | hsoon
    · exact hcoming.append _
    · refine coming_sent ?_
      dsimp only
      omega

/-- A heartbeat is read, and its echo is sent. -/
theorem Timely.serverHear (hs : Sound s) (hup : s.cutAt = none) (byte : UInt8)
    (inbox : List UInt8) :
    Timely L { s with
      server := s.server.hear s.now (t1+t2) inbox
      toClient := s.toClient ++ s.posted L byte } := by
  have hlast := hs.server.heard_le
  have hwake := ht.wake_le
  rw [s.posted_of_up hup]
  refine { ht with
    dueClient := ?_
    answered := ?_
    echo := fun _ => Nat.le_add_right _ _
    fed := .inr (hwake.trans (Nat.le_add_right _ _)) }
  · intro p hp
    rcases List.mem_append.mp hp with hp | hp
    · obtain ⟨hnow, hdue⟩ := ht.dueClient p hp
      refine ⟨hnow, hdue.trans ?_⟩
      exact Nat.add_le_add_right hlast _
    · rw [List.mem_singleton.mp hp]
      exact ⟨Nat.le_add_right _ _, Nat.le_refl _⟩
  · refine ht.answered.imp_right fun ⟨f, heq, hans⟩ => ⟨f, heq, ?_⟩
    rcases hans with hserver | hclient
    · rcases hserver.read inbox with hcoming | hnow
      · exact .inl hcoming
      · refine .inr (coming_sent ?_)
        dsimp only
        omega
    · exact .inr (hclient.append _)

theorem Timely.serverMiss (hbeats : s.server.beats+1 ≤ 3) :
    Timely L { s with server := s.server.miss s.now } := by
  have hmiss : s.server.miss s.now =
      { s.server with beats := s.server.beats+1, wake := s.now+t2*second } := by
    rw [Peer.miss, if_neg (Nat.not_lt.mpr hbeats)]
  rw [hmiss]
  exact { ht with
    answered := ht.answered
    fed := ht.fed }

end Steps

theorem Step.cut_or_up (h : Step L s a s') (hup : s'.cutAt = none) : s.cutAt = none := by
  cases h with
  | cut hcut => exact hcut
  | _ => exact hup

theorem Step.timely (h : Step L s a s') (hL : 2*L < 3*t2*second) (hs : Sound s)
    (ht : Timely L s) (hup : s'.cutAt = none) : Timely L s' := by
  have hup₀ := h.cut_or_up hup
  cases h with
  | wait hclient hserver hdueC hdueS => exact ht.wait hclient hserver hdueC hdueS
  | arriveClient hps => exact ht.arriveClient hps
  | arriveServer hps => exact ht.arriveServer hps
  | clientHear _ hinbox => exact ht.clientHear hinbox
  | clientBeat _ _ hwake hbeats => exact ht.clientBeat hs hup₀ hwake hbeats
  | clientDead _ _ hwake hbeats =>
    have halive := ht.client_alive hs hL hwake
    omega
  | serverHear => exact ht.serverHear hs hup₀ _ _
  | serverMiss _ _ hwake => exact ht.serverMiss (ht.server_alive hs hL hwake)
  | cut => cases hup

/-- As long as the line is up and delivers within `L`, where `2*L < 3*T2`, neither program ends, and
time goes on for both: no live connection is taken for dead. -/
theorem connection_kept (hL : 2*L < 3*t2*second) (h : Reachable (move L) boot s)
    (hup : s.cutAt = none) :
    s.client.ended = false ∧ s.server.ended = false ∧
      ∀ d, ∃ tr s', Run (move L) s tr s' ∧ (∀ p ∈ tr, p.2 ≠ .cut) ∧ s'.now = s.now+d := by
  have hinv {u : System} (hu : Reachable (move L) boot u) :
      Sound u ∧ (u.cutAt = none → Timely L u) := by
    refine Reachable.invariant (I := fun s => Sound s ∧ (s.cutAt = none → Timely L s))
      (fun u a u' hu hmove => ?_) hu ⟨sound_boot, fun _ => timely_boot L⟩
    have hstep := move_step hmove
    refine ⟨hstep.sound hu.1, fun hup' => ?_⟩
    exact hstep.timely hL hu.1 (hu.2 (hstep.cut_or_up hup')) hup'
  have ht := (hinv h).2 hup
  refine ⟨ht.clientRuns, ht.serverRuns, fun d => ?_⟩
  obtain ⟨tr, s', hrun, hnocut, hend⟩ := time_passes L s d
  refine ⟨tr, s', hrun, hnocut, hend.resolve_right fun hstop => ?_⟩
  -- a program that ends would have taken the connection for dead
  have ht' := (hinv (h.trans ⟨tr, hrun⟩)).2 ((run_cutAt_eq hrun hnocut).trans hup)
  rw [System.goesOn, ht'.clientRuns, ht'.serverRuns, Bool.not_false, Bool.and_self,
    Bool.or_true] at hstop
  cases hstop

/-- A byte takes 14 seconds, and the first echo comes after the third heartbeat. -/
def slowRun : List Move :=
  [.wait (60*second), .clientTurn, .wait (10*second), .clientTurn, .serverTurn,
    .wait (4*second), .arriveServer, .serverTurn, .wait (6*second), .clientTurn,
    .wait (4*second), .arriveServer, .serverTurn, .wait (4*second), .arriveClient, .clientTurn]

def slowState : System := (exec (move (14*second)) boot slowRun).get (by decide)

theorem connection_kept_slow :
    slowState.client.ended = false ∧ slowState.server.ended = false ∧
      ∀ d, ∃ tr s', Run (move (14*second)) slowState tr s' ∧ (∀ p ∈ tr, p.2 ≠ .cut) ∧
        s'.now = slowState.now+d :=
  connection_kept (by decide)
    (Reachable.of_exec (show exec (move (14*second)) boot slowRun = some slowState by decide)) rfl

end LinuxPrograms.HeartBeat2
