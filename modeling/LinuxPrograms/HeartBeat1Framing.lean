import LinuxPrograms.HeartBeat1Loops
import LinuxPrograms.LibRuns

/-! heartBeat1 on a stream of whole messages that `recv` hands out in any pieces, with time-outs in
between. The server processes the messages that were sent. The client sends its heartbeats from
the message it is reading into, and processes what was sent only when that changes nothing. -/
namespace LinuxPrograms.HeartBeat1
open Lib

/-- The loop of a program: the message being read, and its two kinds of rounds. -/
structure Loop (σ : Type) where
  inline : σ → Inline
  timeout : σ → Round σ
  recv : (s : σ) → (bytes : List UInt8) → bytes.length ≤ (inline s).cnt → Round σ

def clientLoop : Loop Client := ⟨Client.toInline, Client.timeout, Client.recv⟩

def serverLoop : Loop Server := ⟨Server.toInline, Server.timeout, Server.recv⟩

/-- A program reading the stream of its peer's messages. `taken` counts the bytes `recv` returned,
and `touched` is where in the message being read the last time-out since its first byte came. -/
structure Reading (σ : Type) where
  loop : σ
  taken : ℕ
  touched : ℕ
  events : List Event

/-- What `select` and `recv` do next; `recv` finds at most `n` bytes. -/
inductive Label
  | timeout
  | recv (n : ℕ)
  deriving DecidableEq

def stream (sent : List Msg) : List UInt8 := sent.flatMap Msg.bytes

variable {σ : Type}

/-- One round; a round that ends the program has no next state. -/
def next (L : Loop σ) (sent : List Msg) (s : Reading σ) : Label → Option (Reading σ)
  | .timeout =>
    match L.timeout s.loop with
    | .exit _ => none
    | .back loop events =>
      some { s with loop, touched := s.taken % sizeofMsg, events := s.events ++ events }
  | .recv n =>
    let bytes := ((stream sent).drop s.taken).take n
    if h : 0 < bytes.length ∧ bytes.length ≤ (L.inline s.loop).cnt then
      match L.recv s.loop bytes h.2 with
      | .exit _ => none
      | .back loop events =>
        some { loop, taken := s.taken+bytes.length
               touched := if (s.taken+bytes.length) % sizeofMsg = 0 then 0 else s.touched
               events := s.events ++ events }
    else none

/-- The start of the loop, with what happens to be in `msg`. -/
def start (loop : σ) : Reading σ := ⟨loop, 0, 0, []⟩

def inlineStart (msg : Msg) : Inline := ⟨msg, sizeofMsg, sizeofMsg_pos, le_rfl⟩

def clientStart (msg : Msg) : Client := { inlineStart msg with tv := t1, heartbeats := 0 }

def serverStart (msg : Msg) : Server :=
  { inlineStart msg with tv := t1+t2, missedHeartbeats := 0 }

/-- The messages processed, in order. -/
def processed (events : List Event) : List Msg :=
  events.filterMap fun
    | .process m => some m
    | .send _ => none

/-- The messages sent, in order. -/
def sends (events : List Event) : List Msg :=
  events.filterMap fun
    | .process _ => none
    | .send m => some m

theorem processed_append (l m : List Event) : processed (l ++ m) = processed l ++ processed m :=
  List.filterMap_append

theorem sends_append (l m : List Event) : sends (l ++ m) = sends l ++ sends m :=
  List.filterMap_append

/-! Positions in the stream. -/

theorem stream_length (sent : List Msg) : (stream sent).length = sizeofMsg*sent.length :=
  flatMap_length Msg.bytes Msg.size sent

/-- A byte that is still to come belongs to a message. -/
theorem exists_current {sent : List Msg} {taken : ℕ} (h : taken < (stream sent).length) :
    ∃ cur, sent[taken / sizeofMsg]? = some cur := by
  rw [stream_length] at h
  have hlt : taken / sizeofMsg < sent.length := Nat.div_lt_of_lt_mul h
  exact ⟨_, List.getElem?_eq_getElem hlt⟩

/-- What `recv` returns is a piece of the current message. -/
theorem piece_eq {sent : List Msg} {taken n : ℕ} {cur : Msg}
    (hcur : sent[taken / sizeofMsg]? = some cur)
    (hle : (((stream sent).drop taken).take n).length ≤ sizeofMsg-taken % sizeofMsg) :
    ((stream sent).drop taken).take n =
      (cur.bytes.drop (taken % sizeofMsg)).take (((stream sent).drop taken).take n).length := by
  set bytes := ((stream sent).drop taken).take n with hbytes
  have hprefix : bytes = ((stream sent).drop taken).take bytes.length :=
    List.prefix_iff_eq_take.mp (List.take_prefix _ _)
  have hrest := drop_flatMap Msg.bytes Msg.size sizeofMsg_pos hcur
  change (stream sent).drop taken = _ at hrest
  rw [hrest, List.take_append_of_le_length (by rw [List.length_drop, cur.size]; exact hle)]
    at hprefix
  exact hprefix

theorem position_within {taken n : ℕ} (h : taken % sizeofMsg+n < sizeofMsg) :
    (taken+n) / sizeofMsg = taken / sizeofMsg ∧ (taken+n) % sizeofMsg = taken % sizeofMsg+n := by
  unfold sizeofMsg at *
  omega

theorem position_next {taken n : ℕ} (h : taken % sizeofMsg+n = sizeofMsg) :
    (taken+n) / sizeofMsg = taken / sizeofMsg+1 ∧ (taken+n) % sizeofMsg = 0 := by
  unfold sizeofMsg at *
  omega

/-! The message being read. -/

/-- The bytes of a message, the first `q` of them those of a heartbeat's type. -/
def stamped (bytes : List UInt8) (q : ℕ) : List UInt8 :=
  (beBytes msgHeartbeat).take q ++ bytes.drop q

theorem stamped_zero (bytes : List UInt8) : stamped bytes 0 = bytes := rfl

theorem take_heartbeat_length {q : ℕ} (hq : q ≤ 4) :
    ((beBytes msgHeartbeat).take q).length = q := by
  rw [List.length_take, beBytes_length, Nat.min_eq_left hq]

/-- Behind the stamp the bytes are as they were. -/
theorem drop_stamped {bytes : List UInt8} {q n : ℕ} (hq : q ≤ 4) (h : q ≤ n) :
    (stamped bytes q).drop n = bytes.drop n := by
  obtain ⟨k, rfl⟩ := Nat.exists_eq_add_of_le h
  have hlen := take_heartbeat_length hq
  calc (stamped bytes q).drop (q+k)
      = (stamped bytes q).drop (((beBytes msgHeartbeat).take q).length+k) := by rw [hlen]
    _ = (bytes.drop q).drop k := List.drop_length_add_append k
    _ = bytes.drop (q+k) := List.drop_drop

theorem stamped_length {bytes : List UInt8} {q : ℕ} (hq : q ≤ 4)
    (h : bytes.length = sizeofMsg) : (stamped bytes q).length = sizeofMsg := by
  have hle : 4 ≤ sizeofMsg := by decide
  rw [stamped, List.length_append, take_heartbeat_length hq, List.length_drop, h]
  omega

/-- A stamp does nothing to a message that starts with the bytes of a heartbeat. -/
theorem stamped_eq_iff {bytes : List UInt8} {q : ℕ} (hq : q ≤ 4) (h : q ≤ bytes.length) :
    stamped bytes q = bytes ↔ bytes.take q = (beBytes msgHeartbeat).take q := by
  have hlen : ((beBytes msgHeartbeat).take q).length = (bytes.take q).length := by
    rw [take_heartbeat_length hq, List.length_take, Nat.min_eq_left h]
  constructor
  · intro heq
    have hsplit : (beBytes msgHeartbeat).take q ++ bytes.drop q = bytes.take q ++ bytes.drop q :=
      heq.trans (List.take_append_drop q bytes).symm
    exact (List.append_inj_left hsplit hlen).symm
  · intro heq
    rw [stamped, ← heq, List.take_append_drop]

/-- `msg` holds the part of the current message that was taken, stamped, and `cnt` counts the
rest. -/
structure Inline.Holds (r : Inline) (sent : List Msg) (taken q : ℕ) : Prop where
  cnt : r.cnt = sizeofMsg-taken % sizeofMsg
  taken_part : ∀ cur, sent[taken / sizeofMsg]? = some cur →
    r.msg.bytes.take (taken % sizeofMsg) = (stamped cur.bytes q).take (taken % sizeofMsg)

theorem holds_start {r : Inline} {sent : List Msg} {taken : ℕ} (q : ℕ)
    (hcnt : r.cnt = sizeofMsg) (h : taken % sizeofMsg = 0) : r.Holds sent taken q where
  cnt := by rw [hcnt, h, Nat.sub_zero]
  taken_part := fun cur _ => by rw [h, List.take_zero, List.take_zero]

/-- A time-out of the client stamps what was taken. -/
theorem holds_setType {r : Inline} {sent : List Msg} {taken q : ℕ} (h : r.Holds sent taken q)
    (hq : q ≤ 4) :
    Inline.Holds { r with msg := r.msg.setType msgHeartbeat } sent taken
      (min (taken % sizeofMsg) 4) where
  cnt := h.cnt
  taken_part := by
    intro cur hcur
    have hpart := h.taken_part cur hcur
    set p := taken % sizeofMsg
    change ((r.msg.setType msgHeartbeat).bytes).take p = _
    rw [Msg.setType_bytes]
    by_cases hp : p ≤ 4
    -- only a part of the type was taken, and the time-out wrote over all of it
    · rw [Nat.min_eq_left hp, List.take_append_of_le_length (by rwa [beBytes_length]), stamped,
        List.take_left' (take_heartbeat_length hp)]
    -- the type was taken whole, and the data after it are as they were
    · have hrest : (r.msg.bytes.drop 4).take (p-4) = (cur.bytes.drop 4).take (p-4) := by
        calc (r.msg.bytes.drop 4).take (p-4)
            = (r.msg.bytes.take p).drop 4 := List.drop_take.symm
          _ = ((stamped cur.bytes q).take p).drop 4 := by rw [hpart]
          _ = ((stamped cur.bytes q).drop 4).take (p-4) := List.drop_take
          _ = (cur.bytes.drop 4).take (p-4) := by rw [drop_stamped hq (by omega)]
      rw [Nat.min_eq_right (by omega), stamped, List.take_of_length_le (beBytes_length _).le,
        List.take_append, List.take_append, beBytes_length, hrest]

section Recv

variable {r : Inline} {sent : List Msg} {taken q : ℕ} {bytes : List UInt8} {cur : Msg}
  (hholds : r.Holds sent taken q) (hq : q ≤ 4) (hle : q ≤ taken % sizeofMsg)
  (hcur : sent[taken / sizeofMsg]? = some cur)
  (hbytes : bytes = (cur.bytes.drop (taken % sizeofMsg)).take bytes.length)
include hholds hq hle hcur hbytes

/-- What is in `msg` after the bytes are stored. -/
theorem write_holds (hoff : sizeofMsg-r.cnt+bytes.length ≤ sizeofMsg) :
    (r.msg.write (sizeofMsg-r.cnt) bytes hoff).bytes.take (taken % sizeofMsg+bytes.length) =
      (stamped cur.bytes q).take (taken % sizeofMsg+bytes.length) := by
  have hpos : taken % sizeofMsg < sizeofMsg := Nat.mod_lt _ sizeofMsg_pos
  have hcnt := hholds.cnt
  have hpart := hholds.taken_part cur hcur
  set p := taken % sizeofMsg
  have hp : sizeofMsg-r.cnt = p := by omega
  calc (copyTo r.msg.bytes (sizeofMsg-r.cnt) bytes).take (p+bytes.length)
      = (copyTo r.msg.bytes p bytes).take (p+bytes.length) := by rw [hp]
    _ = r.msg.bytes.take p ++ bytes := take_copyTo _ _ _ (by rw [r.msg.size]; omega)
    _ = (stamped cur.bytes q).take p ++
          ((stamped cur.bytes q).drop p).take bytes.length := by
        rw [hpart, drop_stamped hq hle, ← hbytes]
    _ = (stamped cur.bytes q).take (p+bytes.length) := List.take_add.symm

/-- A piece that does not complete the message. -/
theorem recv_within (h : bytes.length ≤ r.cnt) (hlt : bytes.length < r.cnt) :
    (r.recv bytes h).2 = none ∧ (r.recv bytes h).1.Holds sent (taken+bytes.length) q ∧
      (taken+bytes.length) / sizeofMsg = taken / sizeofMsg ∧
      (taken+bytes.length) % sizeofMsg = taken % sizeofMsg+bytes.length := by
  have hcnt := hholds.cnt
  have hsum : taken % sizeofMsg+bytes.length < sizeofMsg := by omega
  obtain ⟨hdiv, hmod⟩ := position_within hsum
  have hpos : r.cnt-bytes.length > 0 := by omega
  unfold Inline.recv
  rw [dif_pos hpos]
  refine ⟨rfl, ⟨?_, fun x hx => ?_⟩, hdiv, hmod⟩
  · rw [hmod, ← Nat.sub_sub, ← hcnt]
  · rw [hdiv, hcur] at hx
    obtain rfl := Option.some.inj hx
    rw [hmod]
    exact write_holds hholds hq hle hcur hbytes (by have hr := r.cnt_le; omega)

/-- The piece that completes the message. -/
theorem recv_completes (h : bytes.length ≤ r.cnt) (heq : bytes.length = r.cnt) :
    (∃ m, (r.recv bytes h).2 = some m ∧ m.bytes = stamped cur.bytes q) ∧
      (∀ q', (r.recv bytes h).1.Holds sent (taken+bytes.length) q') ∧
      (taken+bytes.length) / sizeofMsg = taken / sizeofMsg+1 ∧
      (taken+bytes.length) % sizeofMsg = 0 := by
  have hlt : taken % sizeofMsg < sizeofMsg := Nat.mod_lt _ sizeofMsg_pos
  have hcnt := hholds.cnt
  have hsum : taken % sizeofMsg+bytes.length = sizeofMsg := by omega
  obtain ⟨hdiv, hmod⟩ := position_next hsum
  have hpos : ¬ r.cnt-bytes.length > 0 := by omega
  unfold Inline.recv
  rw [dif_neg hpos]
  refine ⟨⟨_, rfl, ?_⟩, fun q' => holds_start q' rfl hmod, hdiv, hmod⟩
  have hall := write_holds hholds hq hle hcur hbytes (by have hr := r.cnt_le; omega)
  rw [hsum, List.take_of_length_le (Msg.size _).le,
    List.take_of_length_le (stamped_length hq cur.size).le] at hall
  exact hall

end Recv

/-! Rounds. -/

variable {L : Loop σ} {sent : List Msg} {s s' : Reading σ}

theorem next_timeout (h : next L sent s .timeout = some s') :
    ∃ loop events, L.timeout s.loop = .back loop events ∧
      s' = { s with
        loop, touched := s.taken % sizeofMsg, events := s.events ++ events } := by
  simp only [next] at h
  split at h
  · cases h
  · next loop events hround =>
    obtain rfl := Option.some.inj h
    exact ⟨loop, events, hround, rfl⟩

theorem next_recv {n : ℕ} (h : next L sent s (.recv n) = some s') :
    ∃ (bytes : List UInt8) (hle : bytes.length ≤ (L.inline s.loop).cnt) (loop : σ)
      (events : List Event), bytes = ((stream sent).drop s.taken).take n ∧ 0 < bytes.length ∧
      L.recv s.loop bytes hle = .back loop events ∧
      s' = { loop, taken := s.taken+bytes.length
             touched := if (s.taken+bytes.length) % sizeofMsg = 0 then 0 else s.touched
             events := s.events ++ events } := by
  simp only [next] at h
  split at h
  · next hbytes =>
    split at h
    · cases h
    · next loop events hround =>
      obtain rfl := Option.some.inj h
      exact ⟨_, hbytes.2, loop, events, rfl, hbytes.1, hround, rfl⟩
  · cases h

theorem next_recv_isSome {n : ℕ} {loop : σ} {events : List Event}
    (hpos : 0 < (((stream sent).drop s.taken).take n).length)
    (hle : (((stream sent).drop s.taken).take n).length ≤ (L.inline s.loop).cnt)
    (h : L.recv s.loop _ hle = .back loop events) : (next L sent s (.recv n)).isSome := by
  simp only [next]
  rw [dif_pos ⟨hpos, hle⟩, h]
  rfl

/-- Bytes that were returned belong to a message, and the rest of that message is there. -/
theorem recv_current {taken n : ℕ} (hpos : 0 < (((stream sent).drop taken).take n).length) :
    ∃ cur, sent[taken / sizeofMsg]? = some cur ∧
      sizeofMsg-taken % sizeofMsg ≤ ((stream sent).drop taken).length := by
  have hlt : taken < (stream sent).length := by
    rw [List.length_take, List.length_drop] at hpos
    omega
  obtain ⟨cur, hcur⟩ := exists_current hlt
  refine ⟨cur, hcur, ?_⟩
  have hrest := drop_flatMap Msg.bytes Msg.size sizeofMsg_pos hcur
  change (stream sent).drop taken = _ at hrest
  rw [hrest, List.length_append, List.length_drop, cur.size]
  omega

/-- The bytes end within the message, or complete it. -/
theorem recv_cases {r : Inline} {taken q n : ℕ} {bytes : List UInt8}
    (hholds : r.Holds sent taken q) (hq : q ≤ 4) (hle : q ≤ taken % sizeofMsg)
    (hbytes : bytes = ((stream sent).drop taken).take n) (hpos : 0 < bytes.length)
    (h : bytes.length ≤ r.cnt) :
    (taken % sizeofMsg+n < sizeofMsg ∧ (r.recv bytes h).2 = none ∧
      (r.recv bytes h).1.Holds sent (taken+bytes.length) q ∧
      (taken+bytes.length) / sizeofMsg = taken / sizeofMsg ∧
      (taken+bytes.length) % sizeofMsg = taken % sizeofMsg+bytes.length) ∨
    (sizeofMsg ≤ taken % sizeofMsg+n ∧
      (∃ cur m, sent[taken / sizeofMsg]? = some cur ∧ (r.recv bytes h).2 = some m ∧
        m.bytes = stamped cur.bytes q) ∧
      (∀ q', (r.recv bytes h).1.Holds sent (taken+bytes.length) q') ∧
      (taken+bytes.length) / sizeofMsg = taken / sizeofMsg+1 ∧
      (taken+bytes.length) % sizeofMsg = 0) := by
  obtain ⟨cur, hcur, hrest⟩ := recv_current (hbytes ▸ hpos)
  have hcnt := hholds.cnt
  have hpiece : bytes = (cur.bytes.drop (taken % sizeofMsg)).take bytes.length := by
    rw [hbytes]
    apply piece_eq hcur
    rwa [← hbytes, ← hcnt]
  have hlen : bytes.length = min n ((stream sent).drop taken).length := by
    rw [hbytes, List.length_take]
  by_cases hlt : bytes.length < r.cnt
  · exact .inl ⟨by omega, recv_within hholds hq hle hcur hpiece h hlt⟩
  · obtain ⟨⟨m, hm, hmbytes⟩, hend⟩ := recv_completes hholds hq hle hcur hpiece h (by omega)
    exact .inr ⟨by omega, ⟨cur, m, hcur, hm, hmbytes⟩, hend⟩

/-- What was processed is what was sent, in order. -/
def Faithful (sent : List Msg) (s : Reading σ) : Prop :=
  processed s.events = sent.take (s.taken / sizeofMsg)

theorem faithful_start (sent : List Msg) (loop : σ) : Faithful sent (start loop) := by
  rw [Faithful, start, Nat.zero_div, List.take_zero]
  rfl

theorem take_succ_current {k : ℕ} {cur : Msg} (h : sent[k]? = some cur) :
    sent.take (k+1) = sent.take k ++ [cur] := by
  rw [List.take_add_one, h]
  rfl

/-! The client. -/

/-- `msg` holds the part of the current message that was taken, stamped up to the last time-out. -/
structure ClientOk (sent : List Msg) (s : Reading Client) : Prop where
  holds : s.loop.toInline.Holds sent s.taken (min s.touched 4)
  touched_le : s.touched ≤ s.taken % sizeofMsg

theorem clientOk_start (sent : List Msg) (msg : Msg) : ClientOk sent (start (clientStart msg)) where
  holds := holds_start _ rfl rfl
  touched_le := Nat.zero_le _

theorem client_timeout {s s' : Reading Client} (hok : ClientOk sent s)
    (h : next clientLoop sent s .timeout = some s') :
    ClientOk sent s' ∧ processed s'.events = processed s.events ∧ s'.taken = s.taken := by
  obtain ⟨loop, events, hround, rfl⟩ := next_timeout h
  change Client.timeout s.loop = _ at hround
  unfold Client.timeout at hround
  split at hround
  · cases hround
  · cases hround
    refine ⟨⟨holds_setType hok.holds (Nat.min_le_right _ _), le_rfl⟩, ?_, rfl⟩
    rw [processed_append]
    exact List.append_nil _

/-- The bytes end within the message, or complete it. -/
theorem client_recv {s s' : Reading Client} {n : ℕ} (hok : ClientOk sent s)
    (h : next clientLoop sent s (.recv n) = some s') :
    ClientOk sent s' ∧
    ((s.taken % sizeofMsg+n < sizeofMsg ∧ s'.taken / sizeofMsg = s.taken / sizeofMsg ∧
        processed s'.events = processed s.events) ∨
      (sizeofMsg ≤ s.taken % sizeofMsg+n ∧ s'.taken / sizeofMsg = s.taken / sizeofMsg+1 ∧
        ∃ cur m, sent[s.taken / sizeofMsg]? = some cur ∧
          m.bytes = stamped cur.bytes (min s.touched 4) ∧
          processed s'.events = processed s.events ++ [m])) := by
  obtain ⟨bytes, hle, loop, events, hbytes, hpos, hround, rfl⟩ := next_recv h
  have hle' : bytes.length ≤ s.loop.cnt := hle
  have htouched : min s.touched 4 ≤ s.taken % sizeofMsg :=
    (Nat.min_le_left _ _).trans hok.touched_le
  obtain ⟨rfl, rfl⟩ := Round.back.inj ((s.loop.recv_of_pos hle' hpos).symm.trans hround)
  rcases recv_cases hok.holds (Nat.min_le_right _ _) htouched hbytes hpos hle' with
    ⟨hlt, hnone, hholds, hdiv, hmod⟩ | ⟨hge, ⟨cur, m, hcur, hm, hmbytes⟩, hholds, hdiv, hmod⟩
  · have hnz : (s.taken+bytes.length) % sizeofMsg ≠ 0 := by omega
    have hkept := hok.touched_le
    have hkept' : s.touched ≤ (s.taken+bytes.length) % sizeofMsg := by omega
    refine ⟨⟨?_, ?_⟩, .inl ⟨hlt, hdiv, ?_⟩⟩
    · rw [if_neg hnz]
      exact hholds
    · rw [if_neg hnz]
      exact hkept'
    · rw [processed_append, hnone]
      exact List.append_nil _
  · refine ⟨⟨hholds _, ?_⟩, .inr ⟨hge, hdiv, cur, m, hcur, hmbytes, ?_⟩⟩
    · rw [if_pos hmod]
      exact Nat.zero_le _
    · rw [processed_append, hm]
      rfl

/-- When a piece completes a message, the bytes of its type that a time-out wrote over were those of
a heartbeat's type. -/
def Untouched (sent : List Msg) (s : Reading Client) : Label → Prop
  | .timeout => True
  | .recv n => sizeofMsg ≤ s.taken % sizeofMsg+n → ∀ m, sent[s.taken / sizeofMsg]? = some m →
      m.bytes.take (min s.touched 4) = (beBytes msgHeartbeat).take (min s.touched 4)

theorem client_step_ok (s : Reading Client) (a : Label) (s' : Reading Client)
    (hok : ClientOk sent s) (h : next clientLoop sent s a = some s') : ClientOk sent s' := by
  cases a with
  | timeout => exact (client_timeout hok h).1
  | recv n => exact (client_recv hok h).1

theorem client_step_faithful (s : Reading Client) (a : Label) (s' : Reading Client)
    (hok : ClientOk sent s) (hs : Faithful sent s) (h : next clientLoop sent s a = some s') :
    Faithful sent s' ↔ Untouched sent s a := by
  unfold Faithful at hs ⊢
  cases a with
  | timeout =>
    obtain ⟨-, hevents, htaken⟩ := client_timeout hok h
    rw [hevents, htaken]
    exact ⟨fun _ => trivial, fun _ => hs⟩
  | recv n =>
    obtain ⟨-, ⟨hlt, hdiv, hevents⟩ | ⟨hle, hdiv, cur, m, hcur, hm, hevents⟩⟩ := client_recv hok h
    · rw [hevents, hdiv]
      exact ⟨fun _ hle => absurd hlt (not_lt.mpr hle), fun _ => hs⟩
    · -- one more message was processed
      have hsame : processed s'.events = sent.take (s'.taken / sizeofMsg) ↔
          m.bytes = cur.bytes := by
        rw [hevents, hdiv, take_succ_current hcur, ← hs, List.append_cancel_left_eq,
          List.singleton_inj]
        exact ⟨fun heq => heq ▸ rfl, Msg.ext⟩
      have hfour : min s.touched 4 ≤ cur.bytes.length := by
        have hsize : 4 ≤ sizeofMsg := by decide
        rw [cur.size]
        omega
      rw [hsame, hm, stamped_eq_iff (Nat.min_le_right _ _) hfour]
      constructor
      · intro heq _ x hx
        rw [hcur] at hx
        rwa [← Option.some.inj hx]
      · intro hall
        exact hall hle cur hcur

/-- The client processes what the server sent throughout a run exactly when every piece of the run
that completes a message finds its type untouched. -/
theorem client_faithful_iff (sent : List Msg) (msg : Msg) (tr : List (Reading Client × Label))
    (s : Reading Client) (h : Run (next clientLoop sent) (start (clientStart msg)) tr s) :
    Throughout (Faithful sent) tr s ↔ ∀ p ∈ tr, Untouched sent p.1 p.2 :=
  h.throughout_iff (Untouched sent) client_step_ok client_step_faithful
    (clientOk_start sent msg) (faithful_start sent _)

/-- Zeros, as a message. -/
def zeroMsg : Msg := ⟨List.replicate sizeofMsg 0, List.length_replicate⟩

/-- The states of a run, by what `Untouched` looks at. -/
def places (tr : List (Reading Client × Label)) : List (ℕ × ℕ × Label) :=
  tr.map fun p => (p.1.taken, p.1.touched, p.2)

/-- A time-out after two bytes of a message: the high bytes of the type are zeros. -/
theorem client_faithful_two_bytes :
    ∃ tr s, Run (next clientLoop [zeroMsg.setType msgType1]) (start (clientStart zeroMsg)) tr s ∧
      s.taken = sizeofMsg ∧ Throughout (Faithful [zeroMsg.setType msgType1]) tr s := by
  set sent := [zeroMsg.setType msgType1]
  let labels := [Label.recv 2, Label.timeout, Label.recv 2002]
  have hdone : (exec (next clientLoop sent) (start (clientStart zeroMsg)) labels).map
      Reading.taken = some sizeofMsg := by
    decide +kernel
  obtain ⟨s, hs, htaken⟩ := Option.map_eq_some_iff.mp hdone
  have hrun := Run.of_exec hs
  have hplaces : places (trace (next clientLoop sent) (start (clientStart zeroMsg)) labels) =
      [(0, 0, .recv 2), (2, 0, .timeout), (2, 2, .recv 2002)] := by
    decide +kernel
  refine ⟨_, s, hrun, htaken, (client_faithful_iff sent zeroMsg _ s hrun).mpr ?_⟩
  intro p hp
  have hplace : (p.1.taken, p.1.touched, p.2) ∈
      places (trace (next clientLoop sent) (start (clientStart zeroMsg)) labels) :=
    List.mem_map_of_mem hp
  rw [hplaces] at hplace
  obtain ⟨r, a⟩ := p
  simp only [List.mem_cons, Prod.mk.injEq, List.not_mem_nil, or_false] at hplace
  rcases hplace with ⟨htaken, -, rfl⟩ | ⟨-, -, rfl⟩ | ⟨htaken, htouched, rfl⟩
  · intro hle
    change sizeofMsg ≤ r.taken % sizeofMsg+2 at hle
    rw [htaken] at hle
    exact absurd hle (by decide)
  · trivial
  · intro _ m hm
    change sent[r.taken / sizeofMsg]? = some m at hm
    rw [htaken] at hm
    obtain rfl := Option.some.inj hm
    change (zeroMsg.setType msgType1).bytes.take (min r.touched 4) =
      (beBytes msgHeartbeat).take (min r.touched 4)
    rw [htouched]
    decide +kernel

/-- A time-out after four bytes of a message: it is processed as a heartbeat. -/
theorem client_not_always_faithful :
    ¬ ∀ (sent : List Msg) (msg : Msg) (tr : List (Reading Client × Label)) (s : Reading Client),
      Run (next clientLoop sent) (start (clientStart msg)) tr s →
        Throughout (Faithful sent) tr s := by
  intro hall
  let sent := [zeroMsg.setType msgType1]
  let labels := [Label.recv 4, Label.timeout, Label.recv 2000]
  have hdone : (exec (next clientLoop sent) (start (clientStart zeroMsg)) labels).map
      (fun s => (s.taken, (processed s.events).map fun m => m.bytes.take 4)) =
        some (sizeofMsg, [[0, 0, 0, 3]]) := by
    decide +kernel
  obtain ⟨s, hs, hfinal⟩ := Option.map_eq_some_iff.mp hdone
  obtain ⟨htaken, hprocessed⟩ := Prod.mk.inj hfinal
  have hlast := (hall sent zeroMsg _ s (Run.of_exec hs)).2
  rw [Faithful, htaken] at hlast
  rw [hlast] at hprocessed
  revert hprocessed
  decide +kernel

/-! The server. -/

/-- The types the server's `switch` has a case for. -/
def Known (m : Msg) : Prop := m.type = msgType1 ∨ m.type = msgType2 ∨ m.type = msgHeartbeat

/-- What is to happen for a message. -/
def acts (m : Msg) : List Event :=
  if m.type = msgHeartbeat then [.process m, .send m] else [.process m]

theorem switch_of_known {m : Msg} (h : Known m) : switch m = some (acts m) := by
  have h₁ : msgType1 ≠ msgHeartbeat := by decide
  have h₂ : msgType2 ≠ msgHeartbeat := by decide
  have h₃ : msgType2 ≠ msgType1 := by decide
  unfold switch acts
  rcases h with h | h | h <;> rw [h]
  · rw [if_pos rfl, if_neg h₁]
  · rw [if_neg h₃, if_pos rfl, if_neg h₂]
  · rw [if_neg h₁.symm, if_neg h₂.symm, if_pos rfl, if_pos rfl]

theorem processed_flatMap_acts (l : List Msg) : processed (l.flatMap acts) = l := by
  induction l with
  | nil => rfl
  | cons m l ih =>
    have hone : processed (acts m) = [m] := by
      unfold acts
      split <;> rfl
    rw [List.flatMap_cons, processed_append, ih, hone]
    rfl

theorem sends_flatMap_acts (l : List Msg) :
    sends (l.flatMap acts) = l.filter fun m => m.type = msgHeartbeat := by
  induction l with
  | nil => rfl
  | cons m l ih =>
    rw [List.flatMap_cons, sends_append, ih, acts]
    by_cases hm : m.type = msgHeartbeat
    · rw [if_pos hm, List.filter_cons_of_pos (by simpa using hm)]
      rfl
    · rw [if_neg hm, List.filter_cons_of_neg (by simpa using hm)]
      rfl

/-- `msg` holds the part of the current message that was taken, and the messages before it were
acted on. -/
structure ServerOk (sent : List Msg) (s : Reading Server) : Prop where
  holds : s.loop.toInline.Holds sent s.taken 0
  events : s.events = (sent.take (s.taken / sizeofMsg)).flatMap acts

theorem serverOk_start (sent : List Msg) (msg : Msg) : ServerOk sent (start (serverStart msg)) where
  holds := holds_start _ rfl rfl
  events := by
    rw [start, Nat.zero_div, List.take_zero]
    rfl

theorem server_timeout {s s' : Reading Server} (hok : ServerOk sent s)
    (h : next serverLoop sent s .timeout = some s') : ServerOk sent s' := by
  obtain ⟨loop, events, hround, rfl⟩ := next_timeout h
  change Server.timeout s.loop = _ at hround
  unfold Server.timeout at hround
  split at hround
  · cases hround
  · -- the message that is being read is left alone
    cases hround
    exact ⟨hok.holds, (List.append_nil _).trans hok.events⟩

/-- What a round does with bytes that came: the loop goes on, and a complete message was acted
on. -/
theorem server_round {s : Reading Server} {n : ℕ} (hknown : ∀ m ∈ sent, Known m)
    (hok : ServerOk sent s) {bytes : List UInt8}
    (hbytes : bytes = ((stream sent).drop s.taken).take n) (hpos : 0 < bytes.length)
    (hle : bytes.length ≤ s.loop.cnt) :
    ∃ loop events, s.loop.recv bytes hle = .back loop events ∧
      loop.toInline.Holds sent (s.taken+bytes.length) 0 ∧
      (sent.take (s.taken / sizeofMsg)).flatMap acts ++ events =
        (sent.take ((s.taken+bytes.length) / sizeofMsg)).flatMap acts := by
  rw [s.loop.recv_of_pos hle hpos]
  rcases recv_cases hok.holds (Nat.zero_le 4) (Nat.zero_le _) hbytes hpos hle with
    ⟨-, hnone, hholds, hdiv, -⟩ | ⟨-, ⟨cur, m, hcur, hm, hmbytes⟩, hholds, hdiv, -⟩
  · rw [hnone, hdiv]
    exact ⟨_, _, rfl, hholds, List.append_nil _⟩
  · obtain rfl : m = cur := Msg.ext (hmbytes.trans (stamped_zero _))
    have hswitch := switch_of_known (hknown m (List.mem_of_getElem? hcur))
    rw [hm, hdiv, take_succ_current hcur, List.flatMap_append, List.flatMap_singleton]
    refine ⟨{ (s.loop.toInline.recv bytes hle).1 with missedHeartbeats := 0, tv := t1+t2 },
      acts m, ?_, hholds 0, rfl⟩
    simp only [hswitch]

theorem server_step_ok (hknown : ∀ m ∈ sent, Known m) (s : Reading Server) (a : Label)
    (s' : Reading Server) (hok : ServerOk sent s) (h : next serverLoop sent s a = some s') :
    ServerOk sent s' := by
  cases a with
  | timeout => exact server_timeout hok h
  | recv n =>
    obtain ⟨bytes, hle, loop, events, hbytes, hpos, hround, rfl⟩ := next_recv h
    obtain ⟨loop', events', hround', hholds, hevents⟩ := server_round hknown hok hbytes hpos hle
    obtain ⟨rfl, rfl⟩ := Round.back.inj (hround'.symm.trans hround)
    refine ⟨hholds, ?_⟩
    rw [hok.events]
    exact hevents

/-- The `switch` acts on the messages that were sent, in order and once each, sends back exactly the
heartbeats among them, and never ends the loop. -/
theorem server_processes_messages (sent : List Msg) (hknown : ∀ m ∈ sent, Known m) (msg : Msg)
    (tr : List (Reading Server × Label)) (s : Reading Server)
    (h : Run (next serverLoop sent) (start (serverStart msg)) tr s) :
    processed s.events = sent.take (s.taken / sizeofMsg) ∧
    sends s.events = (sent.take (s.taken / sizeofMsg)).filter (fun m => m.type = msgHeartbeat) ∧
    (s.taken = (stream sent).length → processed s.events = sent) ∧
    ∀ n, 0 < n → n ≤ s.loop.cnt → s.taken < (stream sent).length →
      (next serverLoop sent s (.recv n)).isSome := by
  have hok : ServerOk sent s :=
    Reachable.invariant (server_step_ok hknown) ⟨tr, h⟩ (serverOk_start sent msg)
  have hprocessed : processed s.events = sent.take (s.taken / sizeofMsg) := by
    rw [hok.events, processed_flatMap_acts]
  refine ⟨hprocessed, by rw [hok.events, sends_flatMap_acts], fun hall => ?_, ?_⟩
  · rw [hprocessed, hall, stream_length, Nat.mul_div_cancel_left _ sizeofMsg_pos, List.take_length]
  · intro n hn hcnt hlt
    set bytes := ((stream sent).drop s.taken).take n with hbytes
    have hlen : bytes.length = min n ((stream sent).length-s.taken) := by
      rw [hbytes, List.length_take, List.length_drop]
    have hpos : 0 < bytes.length := by omega
    have hle : bytes.length ≤ s.loop.cnt := by omega
    obtain ⟨loop, events, hround, -⟩ := server_round hknown hok hbytes hpos hle
    exact next_recv_isSome hpos hle hround

/-- Two messages in three pieces, with a time-out. -/
theorem server_echoes_heartbeat :
    ∃ tr s, Run (next serverLoop [zeroMsg.setType msgHeartbeat, zeroMsg.setType msgType2])
      (start (serverStart zeroMsg)) tr s ∧
      processed s.events = [zeroMsg.setType msgHeartbeat, zeroMsg.setType msgType2] ∧
      sends s.events = [zeroMsg.setType msgHeartbeat] := by
  set sent := [zeroMsg.setType msgHeartbeat, zeroMsg.setType msgType2]
  let labels := [Label.recv 3, .timeout, .recv 2001, .recv 2004]
  have hdone : (exec (next serverLoop sent) (start (serverStart zeroMsg)) labels).map
      Reading.taken = some (2*sizeofMsg) := by
    decide +kernel
  obtain ⟨s, hs, htaken⟩ := Option.map_eq_some_iff.mp hdone
  have hrun := Run.of_exec hs
  have hfirst : (zeroMsg.setType msgHeartbeat).type = msgHeartbeat :=
    Msg.type_setType _ _ (by decide)
  have hsecond : (zeroMsg.setType msgType2).type = msgType2 := Msg.type_setType _ _ (by decide)
  have hknown : ∀ m ∈ sent, Known m := by
    intro m hm
    rcases List.mem_cons.mp hm with rfl | hm
    · exact .inr (.inr hfirst)
    · rw [List.mem_singleton.mp hm]
      exact .inr (.inl hsecond)
  obtain ⟨-, hsends, hall, -⟩ := server_processes_messages sent hknown zeroMsg _ s hrun
  refine ⟨_, s, hrun, hall (htaken.trans (stream_length sent).symm), ?_⟩
  have hne : (zeroMsg.setType msgType2).type ≠ msgHeartbeat := by
    rw [hsecond]
    decide
  rw [hsends, htaken, Nat.mul_div_cancel _ sizeofMsg_pos]
  change [zeroMsg.setType msgHeartbeat, zeroMsg.setType msgType2].filter _ = _
  rw [List.filter_cons_of_pos (by simpa using hfirst),
    List.filter_cons_of_neg (by simpa using hne), List.filter_nil]

end LinuxPrograms.HeartBeat1
