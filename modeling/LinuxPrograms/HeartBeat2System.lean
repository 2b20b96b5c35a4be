import LinuxPrograms.HeartBeat2Client

/-! heartBeat2 against a clock: the client and the server (hb_server.c) with the heartbeats between
them, in microseconds. The line may be cut, and then nothing comes any more. Whichever program runs
has heard from the other a bounded time ago, and ends only after the silence it allows. -/
namespace LinuxPrograms.HeartBeat2
open Lib

def second : ℕ := 1000000

/-- A byte on its way, delivered at `due` at the latest. -/
structure Packet where
  byte : UInt8
  due : ℕ
deriving DecidableEq, Repr

/-- A program in its `select`, which waits until `wake`. `beats` is `heartbeats`, or
`missd_heartbeats` in the server; `heard` is when a byte was last read. -/
structure Peer where
  beats : ℕ
  wake : ℕ
  inbox : List UInt8
  heard : ℕ
  ended : Bool
deriving DecidableEq, Repr

/-- `select` has found the socket readable: `tv` is the time that was left, of which only the
seconds are set again. -/
def Peer.hear (p : Peer) (now idle : ℕ) (inbox : List UInt8) : Peer :=
  { p with
    beats := 0
    wake := now+(idle*second+(p.wake-now)%second)
    inbox := inbox
    heard := now }

/-- `select` has timed out, and `tv` is 0. -/
def Peer.miss (p : Peer) (now : ℕ) : Peer :=
  if p.beats+1 > 3 then { p with beats := p.beats+1, ended := true }
  else { p with beats := p.beats+1, wake := now+t2*second }

/-- Both programs, and the bytes on their way, oldest first. -/
structure System where
  now : ℕ
  client : Peer
  toClient : List Packet
  server : Peer
  toServer : List Packet
  cutAt : Option ℕ
deriving DecidableEq, Repr

inductive Move
  | wait (d : ℕ)
  | arriveClient
  | arriveServer
  | clientTurn
  | serverTurn
  | cut
deriving DecidableEq, Repr

/-- A byte that is sent is delivered within `L` microseconds, unless the line is cut. -/
def System.posted (L : ℕ) (s : System) (byte : UInt8) : List Packet :=
  if s.cutAt = none then [⟨byte, s.now+L⟩] else []

/-- Time may pass for a program: it has nothing to read, and its `select` does not end before. -/
def Peer.waits (p : Peer) (t : ℕ) : Bool := p.ended || (p.inbox.isEmpty && t ≤ p.wake)

def clientTurn (L : ℕ) (s : System) : Option System :=
  match s.client.inbox with
  | _ :: inbox => some { s with client := s.client.hear s.now t1 inbox }
  | [] =>
    if s.client.wake ≤ s.now then
      -- `send(chb, "", 1, 0)`
      some { s with
        client := s.client.miss s.now
        toServer := if s.client.beats+1 > 3 then s.toServer else s.toServer ++ s.posted L 0 }
    else none

def serverTurn (L : ℕ) (s : System) : Option System :=
  match s.server.inbox with
  | byte :: inbox =>
    some { s with
      server := s.server.hear s.now (t1+t2) inbox
      toClient := s.toClient ++ s.posted L byte }
  | [] =>
    if s.server.wake ≤ s.now then some { s with server := s.server.miss s.now } else none

/-- When a program ends while the line is up, the other one sees its sockets close, and ends as
well: no move follows. -/
def System.goesOn (s : System) : Bool :=
  s.cutAt.isSome || (!s.client.ended && !s.server.ended)

def move (L : ℕ) (s : System) (a : Move) : Option System :=
  if s.goesOn = false then none
  else match a with
  | .wait d =>
    if s.client.waits (s.now+d) && s.server.waits (s.now+d) &&
        (s.toClient ++ s.toServer).all (fun p => s.now+d ≤ p.due) then
      some { s with now := s.now+d }
    else none
  | .arriveClient =>
    match s.toClient with
    | [] => none
    | p :: ps =>
      some { s with
        toClient := ps, client := { s.client with inbox := s.client.inbox ++ [p.byte] } }
  | .arriveServer =>
    match s.toServer with
    | [] => none
    | p :: ps =>
      some { s with
        toServer := ps, server := { s.server with inbox := s.server.inbox ++ [p.byte] } }
  | .clientTurn => if s.client.ended then none else clientTurn L s
  | .serverTurn => if s.server.ended then none else serverTurn L s
  | .cut =>
    if s.cutAt = none then some { s with cutAt := some s.now, toClient := [], toServer := [] }
    else none

/-- Both programs in their first `select`. -/
def boot : System where
  now := 0
  client := ⟨0, t1*second, [], 0, false⟩
  toClient := []
  server := ⟨0, (t1+t2)*second, [], 0, false⟩
  toServer := []
  cutAt := none

/-! What a move can do. -/

inductive Step (L : ℕ) (s : System) : Move → System → Prop
  | wait {d : ℕ} (hclient : s.client.waits (s.now+d) = true)
      (hserver : s.server.waits (s.now+d) = true) (hdueC : ∀ p ∈ s.toClient, s.now+d ≤ p.due)
      (hdueS : ∀ p ∈ s.toServer, s.now+d ≤ p.due) :
      Step L s (.wait d) { s with now := s.now+d }
  | arriveClient {p : Packet} {ps : List Packet} (hps : s.toClient = p :: ps) :
      Step L s .arriveClient { s with
        toClient := ps, client := { s.client with inbox := s.client.inbox ++ [p.byte] } }
  | arriveServer {p : Packet} {ps : List Packet} (hps : s.toServer = p :: ps) :
      Step L s .arriveServer { s with
        toServer := ps, server := { s.server with inbox := s.server.inbox ++ [p.byte] } }
  | clientHear {byte : UInt8} {inbox : List UInt8} (hrun : s.client.ended = false)
      (hinbox : s.client.inbox = byte :: inbox) :
      Step L s .clientTurn { s with client := s.client.hear s.now t1 inbox }
  | clientBeat (hrun : s.client.ended = false) (hinbox : s.client.inbox = [])
      (hwake : s.client.wake ≤ s.now) (hbeats : s.client.beats+1 ≤ 3) :
      Step L s .clientTurn { s with
        client := s.client.miss s.now, toServer := s.toServer ++ s.posted L 0 }
  | clientDead (hrun : s.client.ended = false) (hinbox : s.client.inbox = [])
      (hwake : s.client.wake ≤ s.now) (hbeats : 3 < s.client.beats+1) :
      Step L s .clientTurn { s with client := s.client.miss s.now }
  | serverHear {byte : UInt8} {inbox : List UInt8} (hrun : s.server.ended = false)
      (hinbox : s.server.inbox = byte :: inbox) :
      Step L s .serverTurn { s with
        server := s.server.hear s.now (t1+t2) inbox
        toClient := s.toClient ++ s.posted L byte }
  | serverMiss (hrun : s.server.ended = false) (hinbox : s.server.inbox = [])
      (hwake : s.server.wake ≤ s.now) :
      Step L s .serverTurn { s with server := s.server.miss s.now }
  | cut (hcut : s.cutAt = none) :
      Step L s .cut { s with cutAt := some s.now, toClient := [], toServer := [] }

variable {L : ℕ} {s s' : System} {a : Move}

theorem clientTurn_step (hrun : s.client.ended = false) (h : clientTurn L s = some s') :
    Step L s .clientTurn s' := by
  unfold clientTurn at h
  split at h
  · next hinbox =>
    cases h
    exact .clientHear hrun hinbox
  · next hinbox =>
    split at h
    · next hwake =>
      cases h
      by_cases hbeats : s.client.beats+1 > 3
      · rw [if_pos hbeats]
        exact .clientDead hrun hinbox hwake hbeats
      · rw [if_neg hbeats]
        exact .clientBeat hrun hinbox hwake (Nat.le_of_not_lt hbeats)
    · cases h

theorem serverTurn_step (hrun : s.server.ended = false) (h : serverTurn L s = some s') :
    Step L s .serverTurn s' := by
  unfold serverTurn at h
  split at h
  · next hinbox =>
    cases h
    exact .serverHear hrun hinbox
  · next hinbox =>
    split at h
    · next hwake =>
      cases h
      exact .serverMiss hrun hinbox hwake
    · cases h

theorem move_step (h : move L s a = some s') : Step L s a s' := by
  unfold move at h
  split at h
  · cases h
  cases a with
  | wait d =>
    dsimp only at h
    split at h
    · next hidle =>
      cases h
      rw [Bool.and_eq_true, Bool.and_eq_true, List.all_eq_true] at hidle
      obtain ⟨⟨hclient, hserver⟩, hdue⟩ := hidle
      refine .wait hclient hserver (fun p hp => ?_) fun p hp => ?_
      · exact of_decide_eq_true (hdue p (List.mem_append_left _ hp))
      · exact of_decide_eq_true (hdue p (List.mem_append_right _ hp))
    · cases h
  | arriveClient =>
    dsimp only at h
    split at h <;> cases h
    next hps => exact .arriveClient hps
  | arriveServer =>
    dsimp only at h
    split at h <;> cases h
    next hps => exact .arriveServer hps
  | clientTurn =>
    dsimp only at h
    split at h
    · cases h
    · next hrun => exact clientTurn_step (Bool.eq_false_iff.mpr hrun) h
  | serverTurn =>
    dsimp only at h
    split at h
    · cases h
    · next hrun => exact serverTurn_step (Bool.eq_false_iff.mpr hrun) h
  | cut =>
    dsimp only at h
    split at h <;> cases h
    next hcut => exact .cut hcut

/-! Silence. -/

/-- The clock of a program that waits `idle` seconds for the other and then three times `T2`. -/
structure Peer.Sound (idle now : ℕ) (p : Peer) : Prop where
  heard_le : p.heard ≤ now
  running : p.ended = false → p.beats ≤ 3 ∧ now ≤ p.wake ∧
    p.heard+(idle+t2*p.beats)*second ≤ p.wake ∧ p.wake < p.heard+(idle+1+t2*p.beats)*second
  silent : p.ended = true → p.heard+(idle+3*t2)*second ≤ now

theorem Peer.sound_hear {p : Peer} (idle now : ℕ) (hrun : p.ended = false) (inbox : List UInt8) :
    (p.hear now idle inbox).Sound idle now where
  heard_le := Nat.le_refl now
  running := by
    intro _
    have hleft := Nat.mod_lt (p.wake-now) (show second > 0 by decide)
    unfold Peer.hear
    dsimp only
    refine ⟨Nat.zero_le _, Nat.le_add_right _ _, ?_, ?_⟩
    · rw [Nat.mul_zero, Nat.add_zero]
      omega
    · rw [Nat.mul_zero, Nat.add_zero, Nat.add_mul, Nat.one_mul]
      omega
  silent := by
    intro hend
    exact (Bool.false_ne_true (hrun.symm.trans hend)).elim

section Sound

variable {p : Peer} {idle now : ℕ} (hp : p.Sound idle now)
include hp

theorem Peer.Sound.wait {d : ℕ} (hwaits : p.waits (now+d) = true) : p.Sound idle (now+d) where
  heard_le := hp.heard_le.trans (Nat.le_add_right _ _)
  running := by
    intro hrun
    obtain ⟨hbeats, -, hwake⟩ := hp.running hrun
    rw [Peer.waits, hrun, Bool.false_or, Bool.and_eq_true] at hwaits
    exact ⟨hbeats, of_decide_eq_true hwaits.2, hwake⟩
  silent := fun hend => (hp.silent hend).trans (Nat.le_add_right _ _)

theorem Peer.Sound.inbox (inbox : List UInt8) :
    { p with inbox := inbox : Peer }.Sound idle now where
  heard_le := hp.heard_le
  running := hp.running
  silent := hp.silent

theorem Peer.Sound.miss (hrun : p.ended = false) (hwake : p.wake ≤ now) :
    (p.miss now).Sound idle now := by
  obtain ⟨hbeats, hnow, hlow, hhigh⟩ := hp.running hrun
  unfold Peer.miss
  split
  · next hdead =>
    have hthree : p.beats = 3 := by omega
    refine ⟨hp.heard_le, nofun, fun _ => ?_⟩
    rw [hthree, Nat.mul_comm t2] at hlow
    exact hlow.trans hwake
  · next hbeat =>
    refine ⟨hp.heard_le, fun _ => ?_, fun h => ?_⟩
    · dsimp only
      rw [Nat.add_mul, Nat.mul_assoc] at hlow hhigh
      rw [Nat.mul_succ, Nat.add_mul, Nat.add_mul, Nat.mul_assoc, Nat.add_mul (idle+1),
        Nat.add_mul (t2*p.beats), Nat.mul_assoc]
      omega
    · exact (Bool.false_ne_true (hrun.symm.trans h)).elim

end Sound

/-- The line was cut at `t`; what had arrived by then is read at once. -/
def Peer.HeardBefore (now t : ℕ) (p : Peer) : Prop :=
  p.ended = false → p.heard ≤ t ∧ (p.inbox ≠ [] → now = t)

theorem Peer.HeardBefore.wait {p : Peer} {now t d : ℕ} (h : p.HeardBefore now t)
    (hwaits : p.waits (now+d) = true) : p.HeardBefore (now+d) t := by
  intro hrun
  rw [Peer.waits, hrun, Bool.false_or, Bool.and_eq_true, List.isEmpty_iff] at hwaits
  exact ⟨(h hrun).1, fun hne => (hne hwaits.1).elim⟩

theorem Peer.HeardBefore.hear {p : Peer} {now t : ℕ} (h : p.HeardBefore now t) (idle : ℕ)
    {byte : UInt8} {inbox : List UInt8} (hinbox : p.inbox = byte :: inbox) :
    (p.hear now idle inbox).HeardBefore now t := by
  intro hrun
  have hnow := (h hrun).2 (by rw [hinbox]; exact List.cons_ne_nil _ _)
  exact ⟨Nat.le_of_eq hnow, fun _ => hnow⟩

theorem Peer.HeardBefore.miss {p : Peer} {now t : ℕ} (h : p.HeardBefore now t)
    (hrun : p.ended = false) : (p.miss now).HeardBefore now t := by
  intro _
  unfold Peer.miss
  split <;> exact h hrun

/-- Both clocks, and nothing on its way once the line is cut. -/
structure Sound (s : System) : Prop where
  client : s.client.Sound t1 s.now
  server : s.server.Sound (t1+t2) s.now
  cut : ∀ t, s.cutAt = some t → s.toClient = [] ∧ s.toServer = [] ∧
    s.client.HeardBefore s.now t ∧ s.server.HeardBefore s.now t

theorem sound_boot : Sound boot where
  client := ⟨Nat.le_refl 0, fun _ => by decide, nofun⟩
  server := ⟨Nat.le_refl 0, fun _ => by decide, nofun⟩
  cut := nofun

theorem System.posted_of_cut {t : ℕ} (h : s.cutAt = some t) (byte : UInt8) :
    s.posted L byte = [] := by
  rw [System.posted, h]
  rfl

theorem Step.sound (h : Step L s a s') (hs : Sound s) : Sound s' := by
  obtain ⟨hclient, hserver, hcut⟩ := hs
  cases h with
  | wait hwaitsC hwaitsS =>
    refine ⟨hclient.wait hwaitsC, hserver.wait hwaitsS, fun t ht => ?_⟩
    obtain ⟨hc, hs, hbeforeC, hbeforeS⟩ := hcut t ht
    exact ⟨hc, hs, hbeforeC.wait hwaitsC, hbeforeS.wait hwaitsS⟩
  | arriveClient hps =>
    refine ⟨hclient.inbox _, hserver, fun t ht => ?_⟩
    rw [(hcut t ht).1] at hps
    cases hps
  | arriveServer hps =>
    refine ⟨hclient, hserver.inbox _, fun t ht => ?_⟩
    rw [(hcut t ht).2.1] at hps
    cases hps
  | clientHear hrun hinbox =>
    refine ⟨Peer.sound_hear _ _ hrun _, hserver, fun t ht => ?_⟩
    obtain ⟨hc, hs, hbeforeC, hbeforeS⟩ := hcut t ht
    exact ⟨hc, hs, hbeforeC.hear _ hinbox, hbeforeS⟩
  | clientBeat hrun _ hwake =>
    refine ⟨hclient.miss hrun hwake, hserver, fun t ht => ?_⟩
    obtain ⟨hc, hs, hbeforeC, hbeforeS⟩ := hcut t ht
    refine ⟨hc, ?_, hbeforeC.miss hrun, hbeforeS⟩
    rw [hs, s.posted_of_cut ht]
    rfl
  | clientDead hrun _ hwake =>
    refine ⟨hclient.miss hrun hwake, hserver, fun t ht => ?_⟩
    obtain ⟨hc, hs, hbeforeC, hbeforeS⟩ := hcut t ht
    exact ⟨hc, hs, hbeforeC.miss hrun, hbeforeS⟩
  | serverHear hrun hinbox =>
    refine ⟨hclient, Peer.sound_hear _ _ hrun _, fun t ht => ?_⟩
    obtain ⟨hc, hs, hbeforeC, hbeforeS⟩ := hcut t ht
    refine ⟨?_, hs, hbeforeC, hbeforeS.hear _ hinbox⟩
    rw [hc, s.posted_of_cut ht]
    rfl
  | serverMiss hrun _ hwake =>
    refine ⟨hclient, hserver.miss hrun hwake, fun t ht => ?_⟩
    obtain ⟨hc, hs, hbeforeC, hbeforeS⟩ := hcut t ht
    exact ⟨hc, hs, hbeforeC, hbeforeS.miss hrun⟩
  | cut =>
    refine ⟨hclient, hserver, fun t ht => ?_⟩
    cases ht
    exact ⟨rfl, rfl, fun _ => ⟨hclient.heard_le, fun _ => rfl⟩,
      fun _ => ⟨hserver.heard_le, fun _ => rfl⟩⟩

theorem Peer.Sound.heard_gt {p : Peer} {idle now : ℕ} (hp : p.Sound idle now)
    (hrun : p.ended = false) : now < p.heard+(idle+1+3*t2)*second := by
  obtain ⟨hbeats, hnow, -, hwake⟩ := hp.running hrun
  have hmul : (idle+1+t2*p.beats)*second ≤ (idle+1+3*t2)*second := by
    refine Nat.mul_le_mul_right _ (Nat.add_le_add_left ?_ _)
    rw [Nat.mul_comm]
    exact Nat.mul_le_mul_right _ hbeats
  omega

theorem Peer.Sound.ended_of_before {p : Peer} {idle now t : ℕ} (hp : p.Sound idle now)
    (hbefore : p.HeardBefore now t) (h : t+(idle+1+3*t2)*second ≤ now) : p.ended = true := by
  by_contra hrun
  rw [Bool.not_eq_true] at hrun
  have hheard := (hbefore hrun).1
  have hnow := hp.heard_gt hrun
  omega

/-! Time. At one moment only finitely much can be done. -/

/-- The program runs, and its `select` has timed out. -/
def Peer.late (p : Peer) (now : ℕ) : Bool := !p.ended && p.wake ≤ now

/-- What is left to do at this moment: a byte counts for each place it has yet to pass. -/
def System.work (s : System) : ℕ :=
  4*s.toServer.length+3*s.server.inbox.length+2*s.toClient.length+s.client.inbox.length+
    5*(s.client.late s.now).toNat+(s.server.late s.now).toNat

theorem Peer.late_hear (p : Peer) (now : ℕ) {idle : ℕ} (hidle : 0 < idle) (inbox : List UInt8) :
    (p.hear now idle inbox).late now = false := by
  have hpos : 0 < idle*second := Nat.mul_pos hidle (by decide)
  unfold Peer.late Peer.hear
  rw [decide_eq_false (by dsimp only; omega), Bool.and_false]

theorem Peer.late_miss (p : Peer) (now : ℕ) : (p.miss now).late now = false := by
  unfold Peer.late Peer.miss
  split
  · rfl
  · have hpos : 0 < t2*second := by decide
    rw [decide_eq_false (by dsimp only; omega), Bool.and_false]

theorem Peer.late_of_wake {p : Peer} {now : ℕ} (hrun : p.ended = false) (hwake : p.wake ≤ now) :
    p.late now = true := by
  rw [Peer.late, hrun, decide_eq_true hwake]
  rfl

theorem Peer.inbox_hear (p : Peer) (now idle : ℕ) (inbox : List UInt8) :
    (p.hear now idle inbox).inbox = inbox :=
  rfl

theorem Peer.inbox_miss (p : Peer) (now : ℕ) : (p.miss now).inbox = p.inbox := by
  unfold Peer.miss
  split <;> rfl

theorem System.posted_length (L : ℕ) (s : System) (byte : UInt8) :
    (s.posted L byte).length ≤ 1 := by
  unfold System.posted
  split
  · exact Nat.le_refl 1
  · exact Nat.zero_le 1

/-- Every move but waiting and the cut leaves less to do at this moment. -/
theorem Step.work_lt (h : Step L s a s') (hwait : ∀ d, a ≠ .wait d) (hcut : a ≠ .cut) :
    s'.now = s.now ∧ s'.work < s.work := by
  cases h with
  | wait => exact absurd rfl (hwait _)
  | cut => exact absurd rfl hcut
  | arriveClient hps =>
    refine ⟨rfl, ?_⟩
    unfold System.work Peer.late
    simp only [hps, List.length_append, List.length_cons, List.length_nil]
    omega
  | arriveServer hps =>
    refine ⟨rfl, ?_⟩
    unfold System.work Peer.late
    simp only [hps, List.length_append, List.length_cons, List.length_nil]
    omega
  | clientHear _ hinbox =>
    have hlate := s.client.late_hear s.now (show 0 < t1 by decide)
    refine ⟨rfl, ?_⟩
    simp only [System.work, hlate, hinbox, Peer.inbox_hear, List.length_cons, Bool.toNat_false]
    omega
  | clientBeat hrun hinbox hwake =>
    have hposted := s.posted_length L 0
    refine ⟨rfl, ?_⟩
    simp only [System.work, Peer.late_miss, Peer.inbox_miss, Peer.late_of_wake hrun hwake,
      List.length_append, Bool.toNat_false, Bool.toNat_true]
    omega
  | clientDead hrun hinbox hwake =>
    refine ⟨rfl, ?_⟩
    simp only [System.work, Peer.late_miss, Peer.inbox_miss, Peer.late_of_wake hrun hwake,
      Bool.toNat_false, Bool.toNat_true]
    omega
  | @serverHear byte inbox hrun hinbox =>
    have hlate := s.server.late_hear s.now (show 0 < t1+t2 by decide)
    have hposted := s.posted_length L byte
    refine ⟨rfl, ?_⟩
    simp only [System.work, hlate, hinbox, Peer.inbox_hear, List.length_cons, List.length_append,
      Bool.toNat_false]
    omega
  | serverMiss hrun hinbox hwake =>
    refine ⟨rfl, ?_⟩
    simp only [System.work, Peer.late_miss, Peer.inbox_miss, Peer.late_of_wake hrun hwake,
      Bool.toNat_false, Bool.toNat_true]
    omega

theorem Step.cutAt_eq (h : Step L s a s') (ha : a ≠ .cut) : s'.cutAt = s.cutAt := by
  cases h with
  | cut => exact absurd rfl ha
  | _ => rfl

/-- A program that has something to do can take its turn. -/
theorem clientTurn_isSome (hgoes : s.goesOn = true) (hrun : s.client.ended = false)
    (h : s.client.inbox ≠ [] ∨ s.client.wake ≤ s.now) : (move L s .clientTurn).isSome := by
  rw [move, hgoes, if_neg Bool.false_ne_true.symm, hrun, if_neg Bool.false_ne_true, clientTurn]
  cases hinbox : s.client.inbox with
  | cons byte inbox => rfl
  | nil =>
    dsimp only
    rw [if_pos (h.resolve_left fun hne => hne hinbox)]
    rfl

theorem serverTurn_isSome (hgoes : s.goesOn = true) (hrun : s.server.ended = false)
    (h : s.server.inbox ≠ [] ∨ s.server.wake ≤ s.now) : (move L s .serverTurn).isSome := by
  rw [move, hgoes, if_neg Bool.false_ne_true.symm, hrun, if_neg Bool.false_ne_true, serverTurn]
  cases hinbox : s.server.inbox with
  | cons byte inbox => rfl
  | nil =>
    dsimp only
    rw [if_pos (h.resolve_left fun hne => hne hinbox)]
    rfl

/-- A program has something to do, or a byte can arrive, or a microsecond can pass. -/
theorem exists_move (hgoes : s.goesOn = true) :
    (∃ a, a ≠ .cut ∧ (∀ d, a ≠ .wait d) ∧ (move L s a).isSome) ∨
      (move L s (.wait 1)).isSome := by
  by_cases hc : s.client.ended = false ∧ (s.client.inbox ≠ [] ∨ s.client.wake ≤ s.now)
  · exact .inl ⟨.clientTurn, nofun, nofun, clientTurn_isSome hgoes hc.1 hc.2⟩
  by_cases hs : s.server.ended = false ∧ (s.server.inbox ≠ [] ∨ s.server.wake ≤ s.now)
  · exact .inl ⟨.serverTurn, nofun, nofun, serverTurn_isSome hgoes hs.1 hs.2⟩
  have hgoes' : ¬s.goesOn = false := by rw [hgoes]; exact Bool.false_ne_true.symm
  cases htoC : s.toClient with
  | cons p ps =>
    refine .inl ⟨.arriveClient, nofun, nofun, ?_⟩
    rw [move, if_neg hgoes', htoC]
    rfl
  | nil =>
    cases htoS : s.toServer with
    | cons p ps =>
      refine .inl ⟨.arriveServer, nofun, nofun, ?_⟩
      rw [move, if_neg hgoes', htoS]
      rfl
    | nil =>
      right
      have hwaits {p : Peer} (h : ¬(p.ended = false ∧ (p.inbox ≠ [] ∨ p.wake ≤ s.now))) :
          p.waits (s.now+1) = true := by
        rw [Peer.waits]
        cases hrun : p.ended with
        | true => rfl
        | false =>
          rw [hrun, eq_self, true_and, not_or, not_not, Nat.not_le] at h
          rw [h.1, decide_eq_true (Nat.succ_le_of_lt h.2)]
          rfl
      rw [move, if_neg hgoes', hwaits hc, hwaits hs, htoC, htoS]
      rfl

/-- A microsecond passes after what is to be done at this moment, by induction on that, unless a
program ends while the line is up. -/
theorem microsecond_passes (L : ℕ) (s : System) :
    ∃ tr s', Run (move L) s tr s' ∧ (∀ p ∈ tr, p.2 ≠ .cut) ∧
      (s'.now = s.now+1 ∨ s'.goesOn = false) := by
  induction hwork : s.work using Nat.strong_induction_on generalizing s with
  | _ n ih =>
    cases hgoes : s.goesOn with
    | false => exact ⟨[], s, .nil s, nofun, .inr hgoes⟩
    | true =>
      rcases exists_move (L := L) hgoes with ⟨a, hcut, hwait, hsome⟩ | hsome
      · obtain ⟨t, ht⟩ := Option.isSome_iff_exists.mp hsome
        obtain ⟨hnow, hlt⟩ := (move_step ht).work_lt hwait hcut
        obtain ⟨tr, s', hrun, hnocut, hend⟩ := ih t.work (hwork ▸ hlt) t rfl
        refine ⟨_, s', .cons ht hrun, List.forall_mem_cons.mpr ⟨hcut, hnocut⟩, ?_⟩
        rwa [hnow] at hend
      · obtain ⟨t, ht⟩ := Option.isSome_iff_exists.mp hsome
        refine ⟨_, t, .single ht, List.forall_mem_singleton.mpr nofun, .inl ?_⟩
        cases move_step ht with
        | wait => rfl

/-- Any time passes, unless a program ends while the line is up. -/
theorem time_passes (L : ℕ) (s : System) (d : ℕ) :
    ∃ tr s', Run (move L) s tr s' ∧ (∀ p ∈ tr, p.2 ≠ .cut) ∧
      (s'.now = s.now+d ∨ s'.goesOn = false) := by
  induction d with
  | zero => exact ⟨[], s, .nil s, nofun, .inl rfl⟩
  | succ d ih =>
    obtain ⟨tr, t, hrun, hnocut, hend⟩ := ih
    rcases hend with hnow | hstop
    · obtain ⟨tr', s', hrun', hnocut', hend'⟩ := microsecond_passes L t
      refine ⟨tr ++ tr', s', hrun.append hrun', fun p hp => ?_, ?_⟩
      · exact (List.mem_append.mp hp).elim (hnocut p) (hnocut' p)
      · rwa [hnow] at hend'
    · exact ⟨tr, t, hrun, hnocut, .inr hstop⟩

theorem run_cutAt_eq {tr : List (System × Move)} (h : Run (move L) s tr s')
    (hnocut : ∀ p ∈ tr, p.2 ≠ .cut) : s'.cutAt = s.cutAt :=
  h.invariant_of_labels (fun u => u.cutAt = s.cutAt) (fun a => a ≠ .cut)
    (fun _ _ _ hu ha hmove => ((move_step hmove).cutAt_eq ha).trans hu) hnocut rfl

/-- Whatever the delays, and whether the line is cut or not: a client that runs has read a byte less
than `T1+3*T2+1` seconds ago, and one that has ended has waited `T1+3*T2` seconds for one; the
server has `T2` seconds more. Time goes on until a program ends while the line is up. So when the
line is cut, time goes on in any case, and both end in time. -/
theorem silence_detected (h : Reachable (move L) boot s) :
    (s.client.ended = false → s.now < s.client.heard+(t1+1+3*t2)*second) ∧
    (s.client.ended = true → s.client.heard+(t1+3*t2)*second ≤ s.now) ∧
    (s.server.ended = false → s.now < s.server.heard+(t1+t2+1+3*t2)*second) ∧
    (s.server.ended = true → s.server.heard+(t1+t2+3*t2)*second ≤ s.now) ∧
    (∀ d, ∃ tr s', Run (move L) s tr s' ∧ (∀ p ∈ tr, p.2 ≠ .cut) ∧ (s'.now = s.now+d ∨
      s'.cutAt = none ∧ (s'.client.ended = true ∨ s'.server.ended = true))) ∧
    (∀ t, s.cutAt = some t →
      (t+(t1+1+3*t2)*second ≤ s.now → s.client.ended = true) ∧
      (t+(t1+t2+1+3*t2)*second ≤ s.now → s.server.ended = true) ∧
      ∀ d, ∃ tr s', Run (move L) s tr s' ∧ s'.now = s.now+d) := by
  have hs : Sound s := h.invariant (fun _ _ _ hs h => (move_step h).sound hs) sound_boot
  refine ⟨hs.client.heard_gt, hs.client.silent, hs.server.heard_gt, hs.server.silent, ?_, ?_⟩
  · intro d
    obtain ⟨tr, s', hrun, hnocut, hend⟩ := time_passes L s d
    refine ⟨tr, s', hrun, hnocut, hend.imp_right fun hstop => ?_⟩
    rw [System.goesOn, Bool.or_eq_false_iff, Option.isSome_eq_false_iff, Option.isNone_iff_eq_none,
      Bool.and_eq_false_iff, Bool.not_eq_false', Bool.not_eq_false'] at hstop
    exact hstop
  · intro t ht
    obtain ⟨-, -, hbeforeC, hbeforeS⟩ := hs.cut t ht
    refine ⟨hs.client.ended_of_before hbeforeC, hs.server.ended_of_before hbeforeS, fun d => ?_⟩
    obtain ⟨tr, s', hrun, hnocut, hend⟩ := time_passes L s d
    refine ⟨tr, s', hrun, hend.resolve_right fun hstop => ?_⟩
    rw [System.goesOn, run_cutAt_eq hrun hnocut, ht] at hstop
    cases hstop

/-- The line is cut after 10 seconds; the client sends three heartbeats and ends, and the server
ends after it. Time goes on. -/
def cutRun : List Move :=
  [.wait (10*second), .cut, .wait (50*second), .clientTurn, .wait (10*second), .clientTurn,
    .serverTurn, .wait (10*second), .clientTurn, .serverTurn, .wait (10*second), .clientTurn,
    .serverTurn, .wait (10*second), .serverTurn, .wait (11*second)]

def cutState : System := (exec (move 0) boot cutRun).get (by decide)

/-- 101 seconds after the cut. -/
theorem silence_detected_cut :
    cutState.cutAt = some (10*second) ∧ cutState.now = 111*second ∧
    (cutState.client.heard+(t1+3*t2)*second ≤ cutState.now ∧
      cutState.server.heard+(t1+t2+3*t2)*second ≤ cutState.now) ∧
    (cutState.client.ended = true ∧ cutState.server.ended = true) ∧
    ∀ d, ∃ tr s', Run (move 0) cutState tr s' ∧ s'.now = cutState.now+d := by
  have hcut : cutState.cutAt = some (10*second) := by decide
  have hnow : cutState.now = 111*second := by decide
  obtain ⟨-, hclient, -, hserver, -, hafter⟩ := silence_detected (Reachable.of_exec
    (show exec (move 0) boot cutRun = some cutState by decide))
  obtain ⟨hclientEnds, hserverEnds, hpasses⟩ := hafter _ hcut
  have hendC := hclientEnds (by rw [hnow]; decide)
  have hendS := hserverEnds (by rw [hnow]; decide)
  exact ⟨hcut, hnow, ⟨hclient hendC, hserver hendS⟩, ⟨hendC, hendS⟩, hpasses⟩

end LinuxPrograms.HeartBeat2
