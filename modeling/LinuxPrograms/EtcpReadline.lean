import LinuxPrograms.EtcpReads
import Mathlib.Data.List.GetD

/-! `readline` (etcp.c). It takes up to 1500 bytes from the descriptor at a time into a buffer of
its own, which ends with the call: what follows the newline there is lost, and the next call does
not start at the next line. -/
namespace LinuxPrograms.Etcp
open Lib

/-- `'\n'`. -/
def newline : UInt8 := 10

/-- The variables of `readline`; `bp` and `off` are the places of `*bp` and `*bufptr` in `b` and in
the caller's buffer. -/
structure Readline where
  len : ℕ
  cnt : ℤ
  b : List UInt8
  bp : ℕ
  off : ℕ
  mem : List UInt8

/-- How `if( --cnt <= 0 )` ends: `return`, `continue`, or a character is at `bp`. -/
inductive Fill
  | ret (rc : ℤ)
  | again (s : Readline)
  | filled (s : Readline)

/-- The body of the loop up to `c = *bp++`. -/
def Readline.fill (s : Readline) (io : Io) : Option (Fill × Io) :=
  if s.cnt-1 ≤ 0 then
    match io.read 1500 with
    | none => none
    | some (none, io') =>
      -- `len++` takes the decrement of the loop's test back
      if io'.errno = EINTR then some (.again { s with len := s.len+1, cnt := -1 }, io')
      else some (.ret (-1), io')
    | some (some got, io') =>
      if got.length = 0 then some (.ret 0, io')
      else some (.filled { s with cnt := got.length, b := copyTo s.b 0 got, bp := 0 }, io')
  else some (.filled { s with cnt := s.cnt-1 }, io)

/-- `*bp`. -/
def Readline.char (s : Readline) : UInt8 := s.b.getD s.bp 0

/-- `c = *bp++; *bufptr++ = c;`. -/
def Readline.store (s : Readline) : Readline :=
  { s with bp := s.bp+1, off := s.off+1, mem := s.mem.set s.off s.char }

/-- What the body can do: a call of `recv` was interrupted, failed, met the end of the stream or
returned a piece, or the last piece was not used up. -/
theorem Readline.fill_cases {s : Readline} {f : Fill} {io io' : Io}
    (h : s.fill io = some (f, io')) :
    (s.cnt ≤ 1 ∧ io.read 1500 = some (none, io') ∧
      ((io'.errno = EINTR ∧ f = .again { s with len := s.len+1, cnt := -1 }) ∨
        (io'.errno ≠ EINTR ∧ f = .ret (-1)))) ∨
    (∃ got, s.cnt ≤ 1 ∧ io.read 1500 = some (some got, io') ∧
      ((got = [] ∧ f = .ret 0) ∨
        (got.length ≠ 0 ∧
          f = .filled { s with cnt := got.length, b := copyTo s.b 0 got, bp := 0 }))) ∨
    (1 < s.cnt ∧ io' = io ∧ f = .filled { s with cnt := s.cnt-1 }) := by
  unfold Readline.fill at h
  split at h
  · next hcnt =>
    have hused : s.cnt ≤ 1 := by omega
    split at h
    · cases h
    · next hread =>
      split at h
      · next herr =>
        cases h
        exact .inl ⟨hused, hread, .inl ⟨herr, rfl⟩⟩
      · next herr =>
        cases h
        exact .inl ⟨hused, hread, .inr ⟨herr, rfl⟩⟩
    · next got _ hread =>
      split at h
      · next hgot =>
        cases h
        exact .inr (.inl ⟨got, hused, hread, .inl ⟨List.length_eq_zero_iff.mp hgot, rfl⟩⟩)
      · next hgot =>
        cases h
        exact .inr (.inl ⟨got, hused, hread, .inr ⟨hgot, rfl⟩⟩)
  · cases h
    exact .inr (.inr ⟨by omega, rfl, rfl⟩)

theorem Readline.fill_again {s s' : Readline} {io io' : Io}
    (h : s.fill io = some (.again s', io')) :
    s' = { s with len := s.len+1, cnt := -1 } ∧ s.cnt ≤ 1 ∧ io.read 1500 = some (none, io') := by
  obtain ⟨hcnt, hread, ⟨-, hf⟩ | ⟨-, hf⟩⟩ | ⟨_, -, -, ⟨-, hf⟩ | ⟨-, hf⟩⟩ | ⟨-, -, hf⟩ :=
    Readline.fill_cases h
  · exact ⟨Fill.again.inj hf, hcnt, hread⟩
  all_goals cases hf

theorem Readline.fill_filled {s s' : Readline} {io io' : Io}
    (h : s.fill io = some (.filled s', io')) :
    (∃ got, s.cnt ≤ 1 ∧ io.read 1500 = some (some got, io') ∧ got.length ≠ 0 ∧
      s' = { s with cnt := got.length, b := copyTo s.b 0 got, bp := 0 }) ∨
    (1 < s.cnt ∧ io' = io ∧ s' = { s with cnt := s.cnt-1 }) := by
  obtain ⟨-, -, ⟨-, hf⟩ | ⟨-, hf⟩⟩ | ⟨got, hcnt, hread, ⟨-, hf⟩ | ⟨hgot, hf⟩⟩ |
    ⟨hcnt, hio, hf⟩ := Readline.fill_cases h
  · cases hf
  · cases hf
  · cases hf
  · exact .inl ⟨got, hcnt, hread, hgot, Fill.filled.inj hf⟩
  · exact .inr ⟨hcnt, hio, Fill.filled.inj hf⟩

theorem Readline.fill_ret {s : Readline} {io io' : Io} {rc : ℤ}
    (h : s.fill io = some (.ret rc, io')) :
    s.cnt ≤ 1 ∧ ((rc = -1 ∧ io'.errno ≠ EINTR ∧ io.read 1500 = some (none, io')) ∨
      (rc = 0 ∧ io.read 1500 = some (some [], io'))) := by
  obtain ⟨hcnt, hread, ⟨-, hf⟩ | ⟨herr, hf⟩⟩ | ⟨got, hcnt, hread, ⟨rfl, hf⟩ | ⟨-, hf⟩⟩ |
    ⟨-, -, hf⟩ := Readline.fill_cases h
  · cases hf
  · exact ⟨hcnt, .inl ⟨Fill.ret.inj hf, herr, hread⟩⟩
  · exact ⟨hcnt, .inr ⟨Fill.ret.inj hf, hread⟩⟩
  · cases hf
  · cases hf

theorem Readline.fill_again_lt {s s' : Readline} {io io' : Io} (hlen : s.len-1 > 0)
    (h : Readline.fill { s with len := s.len-1 } io = some (.again s', io')) :
    s'.len+io'.answers.length < s.len+io.answers.length := by
  obtain ⟨rfl, -, hread⟩ := Readline.fill_again h
  have hlt := Io.read_answers_lt hread
  change s.len-1+1+io'.answers.length < s.len+io.answers.length
  omega

theorem Readline.fill_filled_lt {s s' : Readline} {io io' : Io} (hlen : s.len-1 > 0)
    (h : Readline.fill { s with len := s.len-1 } io = some (.filled s', io')) :
    s'.len+io'.answers.length < s.len+io.answers.length := by
  obtain ⟨got, -, hread, -, rfl⟩ | ⟨-, rfl, rfl⟩ := Readline.fill_filled h
  · have hlt := Io.read_answers_lt hread
    change s.len-1+io'.answers.length < s.len+io.answers.length
    omega
  · change s.len-1+io'.answers.length < s.len+io'.answers.length
    omega

/-- The loop. Its test counts `len` down; an interrupted `recv` counts it up again. -/
def readlineLoop (io : Io) (s : Readline) : Option Result :=
  if hlen : s.len-1 > 0 then
    match _h : Readline.fill { s with len := s.len-1 } io with
    | none => none
    | some (.ret rc, io') => some ⟨rc, s.mem, io'⟩
    | some (.again s', io') => readlineLoop io' s'
    | some (.filled s', io') =>
      if s'.char = newline then
        some ⟨toInt s'.store.off, s'.store.mem.set s'.store.off 0, io'⟩
      else readlineLoop io' s'.store
  else some ⟨-1, s.mem, { io with errno := EMSGSIZE }⟩
termination_by s.len+io.answers.length
decreasing_by
  · exact Readline.fill_again_lt hlen _h
  · have hlt := Readline.fill_filled_lt hlen _h
    exact hlt

/-- `readline(fd, bufptr, len)`; a `len` of 0 wraps in the loop's test. -/
def readline (len : ℕ) (io : Io) (mem : List UInt8) : Option Result :=
  readlineLoop io ⟨if len = 0 then 2^64 else len, 0, List.replicate 1500 0, 0, 0, mem⟩

/-! What `recv` returns, and which of it a call takes. -/

/-- The bytes each call of `recv` returns, one after the other. -/
def recvResults : List Answer → List UInt8 → List (List UInt8)
  | [], _ => []
  | .fail _ :: answers, stream => recvResults answers stream
  | .give n :: answers, stream =>
    stream.take (min (n+1) 1500) :: recvResults answers (stream.drop (min (n+1) 1500))

def Io.recvs (io : Io) : List (List UInt8) := recvResults io.answers io.stream

/-- From `io` to `io'`, `recv` returned the bytes `cs`. -/
structure Recv (io : Io) (cs : List (List UInt8)) (io' : Io) : Prop where
  stream : io.stream = cs.flatten ++ io'.stream
  recvs : io.recvs = cs ++ io'.recvs
  eintr : OnlyEintr io'

theorem Recv.refl {io : Io} (h : OnlyEintr io) : Recv io [] io := ⟨rfl, rfl, h⟩

theorem Recv.trans {io io' io'' : Io} {cs ds : List (List UInt8)} (h : Recv io cs io')
    (h' : Recv io' ds io'') : Recv io (cs ++ ds) io'' where
  stream := by rw [h.stream, h'.stream, List.flatten_append, List.append_assoc]
  recvs := by rw [h.recvs, h'.recvs, List.append_assoc]
  eintr := h'.eintr

/-- The whole stream is still delivered. -/
theorem Recv.delivered {io io' : Io} {cs : List (List UInt8)} (h : Recv io cs io')
    (hall : io.recvs.flatten = io.stream) : io'.recvs.flatten = io'.stream := by
  rw [h.recvs, h.stream, List.flatten_append] at hall
  exact List.append_cancel_left hall

/-- An interrupted call of `recv` returns nothing. -/
theorem recv_interrupted {io io' : Io} (heintr : OnlyEintr io)
    (h : io.read 1500 = some (none, io')) : io'.errno = EINTR ∧ Recv io [] io' := by
  have herr := (read_interrupted heintr h).1
  obtain ⟨e, answers, ha, rfl⟩ := read_fail h
  refine ⟨herr, rfl, ?_, heintr.tail ha⟩
  rw [Io.recvs, ha]
  rfl

/-- Another one returns a piece, which is empty at the end of the stream only. -/
theorem recv_piece {io io' : Io} {l : List UInt8} (heintr : OnlyEintr io)
    (h : io.read 1500 = some (some l, io')) : Recv io [l] io' ∧ (l = [] → io.stream = []) := by
  obtain ⟨n, answers, ha, hl, rfl⟩ := read_give h
  have hlen : l.length = min (min (n+1) 1500) io.stream.length := by
    rw [hl, List.length_take]
  have hdrop : io.stream.drop l.length = io.stream.drop (min (n+1) 1500) := by
    rw [hlen]
    by_cases hle : min (n+1) 1500 ≤ io.stream.length
    · rw [Nat.min_eq_left hle]
    · rw [List.drop_eq_nil_of_le (by omega), List.drop_eq_nil_of_le (by omega)]
  refine ⟨⟨?_, ?_, heintr.tail ha⟩, fun hnil => ?_⟩
  · calc io.stream
        = io.stream.take (min (n+1) 1500) ++ io.stream.drop (min (n+1) 1500) :=
          (List.take_append_drop _ _).symm
      _ = [l].flatten ++ io.stream.drop l.length := by rw [← hl, hdrop, List.flatten_singleton]
  · change recvResults io.answers io.stream = l :: recvResults answers (io.stream.drop l.length)
    rw [ha, recvResults, ← hl, hdrop]
  · rw [hnil, List.length_nil] at hlen
    exact List.length_eq_zero_iff.mp (by omega)

/-- The bytes in the local buffer that the loop has not looked at. -/
def Readline.pending (s : Readline) : List UInt8 := (s.b.drop s.bp).take (s.cnt-1).toNat

/-- The local buffer holds them, and the caller's buffer has room for `len` bytes more. -/
structure Readline.Ok (s : Readline) : Prop where
  bound : s.bp+(s.cnt-1).toNat ≤ s.b.length
  room : s.off+s.len ≤ s.mem.length

theorem pending_eq_nil {s : Readline} (h : s.cnt ≤ 1) : s.pending = [] := by
  have hz : (s.cnt-1).toNat = 0 := by omega
  rw [Readline.pending, hz, List.take_zero]

/-- A character to store comes with what is then still to be looked at. -/
theorem fill_spec {s s' : Readline} {io io' : Io} (heintr : OnlyEintr io)
    (hlocal : s.bp+(s.cnt-1).toNat ≤ s.b.length)
    (h : s.fill io = some (.filled s', io')) :
    ∃ cs, Recv io cs io' ∧ s.pending ++ cs.flatten = s'.char :: s'.store.pending ∧
      (cs = [] ∨ s.pending = [] ∧ cs.length = 1) ∧ s'.len = s.len ∧ s'.off = s.off ∧
      s'.mem = s.mem ∧ s'.store.bp+(s'.store.cnt-1).toNat ≤ s'.store.b.length := by
  obtain ⟨got, hcnt, hread, hgot, rfl⟩ | ⟨hcnt, rfl, rfl⟩ := Readline.fill_filled h
  -- nothing was left, and a new piece came
  · obtain ⟨hrecv, -⟩ := recv_piece heintr hread
    obtain _ | ⟨c, rest⟩ := got
    · exact absurd rfl hgot
    have hb : copyTo s.b 0 (c :: rest) = c :: (rest ++ s.b.drop (0+(c :: rest).length)) := rfl
    have hcount : (((c :: rest).length : ℤ)-1).toNat = rest.length := by
      rw [List.length_cons]
      omega
    refine ⟨[c :: rest], hrecv, ?_, .inr ⟨pending_eq_nil hcnt, rfl⟩, rfl, rfl, rfl, ?_⟩
    · rw [pending_eq_nil hcnt, List.nil_append, List.flatten_singleton]
      change c :: rest = (copyTo s.b 0 (c :: rest)).getD 0 0 ::
        ((copyTo s.b 0 (c :: rest)).drop 1).take (((c :: rest).length : ℤ)-1).toNat
      rw [hcount, hb, List.drop_succ_cons, List.drop_zero, List.take_left]
      rfl
    · change 1+(((c :: rest).length : ℤ)-1).toNat ≤ (copyTo s.b 0 (c :: rest)).length
      rw [hcount, hb, List.length_cons, List.length_append]
      omega
  -- the next character of the last piece
  · have hlt : s.bp < s.b.length := by omega
    have hnat : (s.cnt-1).toNat = (s.cnt-1-1).toNat+1 := by omega
    refine ⟨[], .refl heintr, ?_, .inl rfl, rfl, rfl, rfl, ?_⟩
    · rw [List.flatten_nil, List.append_nil, Readline.pending, hnat,
        List.drop_eq_getElem_cons hlt, List.take_succ_cons]
      change _ = s.b.getD s.bp 0 :: (s.b.drop (s.bp+1)).take (s.cnt-1-1).toNat
      rw [List.getD_eq_getElem _ _ hlt]
    · change s.bp+1+(s.cnt-1-1).toNat ≤ s.b.length
      omega

/-! One call. -/

/-- The call met `m` and a newline; `x` is what came with the newline in the last piece. -/
structure Found (s : Readline) (io : Io) (cs : List (List UInt8)) (m x : List UInt8)
    (r : Result) : Prop where
  recv : Recv io cs r.io
  bytes : s.pending ++ cs.flatten = m ++ newline :: x
  first : newline ∉ m
  last : cs = [] ∨ ∃ cs₀ x₀, cs = cs₀ ++ [x₀ ++ newline :: x] ∧ m = s.pending ++ cs₀.flatten ++ x₀
  rc : r.rc = toInt (s.off+m.length+1)
  mem : r.mem.take (s.off+m.length+2) = s.mem.take s.off ++ m ++ [newline, 0]

/-- The call met the end of the stream, or as many bytes as it has room for, and no newline. -/
def Stopped (s : Readline) (io : Io) (r : Result) : Prop :=
  r.rc ≤ 0 ∧ ∃ m, m <+: s.pending ++ io.stream ∧ newline ∉ m ∧
    (m = s.pending ++ io.stream ∨ s.len ≤ m.length+1)

theorem take_set_succ {mem : List UInt8} {off : ℕ} (h : off < mem.length) (c : UInt8) :
    (mem.set off c).take (off+1) = mem.take off ++ [c] := by
  have hlt : off < (mem.set off c).length := by rwa [List.length_set]
  rw [List.take_succ_eq_append_getElem hlt, List.getElem_set_self, List.take_set_of_le le_rfl]

/-- Two characters stored one after the other. -/
theorem take_set_set {mem : List UInt8} {off : ℕ} (h : off+1 < mem.length) (c d : UInt8) :
    ((mem.set off c).set (off+1) d).take (off+2) = mem.take off ++ [c, d] := by
  rw [take_set_succ (by rwa [List.length_set]), take_set_succ (by omega), List.append_assoc]
  rfl

section Step

variable {s s' : Readline} {io io' : Io} {cs : List (List UInt8)} {r : Result}
  (hrecv : Recv io cs io') (hbytes : s.pending ++ cs.flatten = s'.char :: s'.store.pending)
  (hcs : cs = [] ∨ s.pending = [] ∧ cs.length = 1) (hoff : s'.off = s.off) (hmem : s'.mem = s.mem)
include hrecv hbytes hcs hoff hmem

/-- The character is the newline. -/
theorem found_here (hchar : s'.char = newline) (hroom : s.off+1 < s.mem.length) :
    Found s io cs [] s'.store.pending
      ⟨toInt s'.store.off, s'.store.mem.set s'.store.off 0, io'⟩ where
  recv := hrecv
  bytes := by rw [hbytes, hchar, List.nil_append]
  first := List.not_mem_nil
  last := by
    rcases hcs with hnil | ⟨hpending, hone⟩
    · exact .inl hnil
    · obtain ⟨c, rfl⟩ := List.length_eq_one_iff.mp hone
      rw [hpending, List.nil_append, List.flatten_singleton, hchar] at hbytes
      refine .inr ⟨[], [], ?_, ?_⟩
      · rw [hbytes, List.nil_append, List.nil_append]
      · rw [hpending, List.flatten_nil, List.append_nil, List.append_nil]
  rc := by
    have hstore : s'.store.off = s'.off+1 := rfl
    rw [List.length_nil, Nat.add_zero, ← hoff, hstore]
  mem := by
    rw [List.length_nil, Nat.add_zero, List.append_nil, ← take_set_set hroom newline 0]
    simp only [Readline.store, hmem, hoff, hchar]

/-- The character is another one, and the newline is found later. -/
theorem found_next {ds : List (List UInt8)} {m x : List UInt8} (hchar : s'.char ≠ newline)
    (hroom : s.off < s.mem.length) (h : Found s'.store io' ds m x r) :
    Found s io (cs ++ ds) (s'.char :: m) x r where
  recv := hrecv.trans h.recv
  bytes := by
    rw [List.flatten_append, ← List.append_assoc, hbytes, List.cons_append, h.bytes,
      List.cons_append]
  first := fun hmem => (List.mem_cons.mp hmem).elim (fun heq => hchar heq.symm) h.first
  last := by
    rcases h.last with rfl | ⟨cs₀, x₀, rfl, hm⟩
    · rcases hcs with rfl | ⟨hpending, hone⟩
      · exact .inl rfl
      · obtain ⟨c, rfl⟩ := List.length_eq_one_iff.mp hone
        have hrest := h.bytes
        rw [List.flatten_nil, List.append_nil] at hrest
        rw [hpending, List.nil_append, List.flatten_singleton, hrest] at hbytes
        refine .inr ⟨[], s'.char :: m, ?_, ?_⟩
        · rw [hbytes, List.append_nil, List.nil_append, List.cons_append]
        · rw [hpending, List.flatten_nil, List.nil_append, List.nil_append]
    · refine .inr ⟨cs ++ cs₀, x₀, (List.append_assoc _ _ _).symm, ?_⟩
      rw [List.flatten_append, hm, ← List.append_assoc s.pending, hbytes, List.cons_append,
        List.cons_append]
  rc := by
    have hrc := h.rc
    change r.rc = toInt (s'.off+1+m.length+1) at hrc
    rw [hrc, hoff, List.length_cons, Nat.add_right_comm s.off, ← Nat.add_assoc s.off]
  mem := by
    have hm := h.mem
    change r.mem.take (s'.off+1+m.length+2) =
      (s'.mem.set s'.off s'.char).take (s'.off+1) ++ m ++ [newline, 0] at hm
    rw [hoff, hmem, take_set_succ hroom] at hm
    rw [List.length_cons, ← Nat.add_assoc, Nat.add_right_comm s.off, hm,
      List.append_assoc (s.mem.take s.off), List.singleton_append]

end Step

theorem stopped_next {s s' : Readline} {io io' : Io} {cs : List (List UInt8)} {r : Result}
    (hrecv : Recv io cs io') (hbytes : s.pending ++ cs.flatten = s'.char :: s'.store.pending)
    (hlen : s.len ≤ s'.len+1)
    (hchar : s'.char ≠ newline) (h : Stopped s'.store io' r) : Stopped s io r := by
  obtain ⟨hrc, m, hprefix, hfirst, hend⟩ := h
  have hall : s.pending ++ io.stream = s'.char :: (s'.store.pending ++ io'.stream) := by
    rw [hrecv.stream, ← List.append_assoc, hbytes, List.cons_append]
  refine ⟨hrc, s'.char :: m, ?_, ?_, ?_⟩
  · rw [hall]
    exact (List.cons_prefix_cons).mpr ⟨rfl, hprefix⟩
  · exact fun hmem => (List.mem_cons.mp hmem).elim (fun heq => hchar heq.symm) hfirst
  · rcases hend with rfl | hend
    · exact .inl hall.symm
    · right
      have hend' : s'.len ≤ m.length+1 := hend
      rw [List.length_cons]
      omega

/-- An interrupted `recv` brought nothing, and the loop is where it was. -/
theorem found_again {s : Readline} {io io' : Io} {cs : List (List UInt8)} {m x : List UInt8}
    {r : Result} (hrecv : Recv io [] io') (hpending : s.pending = [])
    (h : Found { s with cnt := -1 } io' cs m x r) : Found s io cs m x r := by
  refine ⟨hrecv.trans h.recv, ?_, h.first, ?_, h.rc, h.mem⟩
  · rw [hpending]
    exact h.bytes
  · rw [hpending]
    exact h.last

theorem stopped_again {s : Readline} {io io' : Io} {r : Result} (hrecv : Recv io [] io')
    (hpending : s.pending = []) (h : Stopped { s with cnt := -1 } io' r) : Stopped s io r := by
  obtain ⟨hrc, m, hprefix, hfirst, hend⟩ := h
  have hstream : s.pending ++ io.stream = [] ++ io'.stream := by
    rw [hpending, hrecv.stream]
    rfl
  refine ⟨hrc, m, ?_, hfirst, ?_⟩
  · rw [hstream]
    exact hprefix
  · rw [hstream]
    exact hend

/-- A call that returns has found the newline, or stopped without one. -/
theorem readlineLoop_spec {s : Readline} {io : Io} {r : Result} (heintr : OnlyEintr io)
    (hok : s.Ok) (h : readlineLoop io s = some r) :
    (∃ cs m x, Found s io cs m x r) ∨ Stopped s io r := by
  fun_induction readlineLoop io s with
  | case1 io s hlen hfill => cases h
  | case2 io s hlen rc io' hfill =>
    obtain rfl := Option.some.inj h
    obtain ⟨hcnt, ⟨-, herr, hread⟩ | ⟨rfl, hread⟩⟩ := Readline.fill_ret hfill
    -- no other error than an interruption is to come
    · exact absurd (recv_interrupted heintr hread).1 herr
    -- the end of the stream
    · have hpending : s.pending = [] := pending_eq_nil hcnt
      have hnil : s.pending ++ io.stream = [] := by
        rw [(recv_piece heintr hread).2 rfl, hpending, List.append_nil]
      exact .inr ⟨le_rfl, [], List.nil_prefix, List.not_mem_nil, .inl hnil.symm⟩
  | case3 io s hlen s' io' hfill ih =>
    obtain ⟨rfl, hcnt, hread⟩ := Readline.fill_again hfill
    have hrecv := (recv_interrupted heintr hread).2
    have hpending : s.pending = [] := pending_eq_nil hcnt
    have hcount : s.len-1+1 = s.len := by omega
    have hlocal : s.bp+((-1 : ℤ)-1).toNat ≤ s.b.length := by
      have hle := hok.bound
      omega
    rw [hcount] at ih h
    -- the same call, with an answer less
    obtain ⟨cs, m, x, hfound⟩ | hstop := ih hrecv.eintr ⟨hlocal, hok.room⟩ h
    · exact .inl ⟨cs, m, x, found_again hrecv hpending hfound⟩
    · exact .inr (stopped_again hrecv hpending hstop)
  | case4 io s hlen s' io' hfill hchar =>
    obtain rfl := Option.some.inj h
    have hroom := hok.room
    obtain ⟨cs, hrecv, hbytes, hcs, -, hoff, hmem, -⟩ :=
      fill_spec (s := { s with len := s.len-1 }) heintr hok.bound hfill
    exact .inl ⟨cs, [], _, found_here (s := s) hrecv hbytes hcs hoff hmem hchar (by omega)⟩
  | case5 io s hlen s' io' hfill hchar ih =>
    have hroom := hok.room
    obtain ⟨cs, hrecv, hbytes, hcs, hlen', hoff, hmem, hlocal⟩ :=
      fill_spec (s := { s with len := s.len-1 }) heintr hok.bound hfill
    have hcount : s'.len = s.len-1 := hlen'
    have hoff' : s'.off = s.off := hoff
    have hmem' : s'.mem = s.mem := hmem
    have hok' : s'.store.Ok := by
      refine ⟨hlocal, ?_⟩
      change s'.off+1+s'.len ≤ (s'.mem.set s'.off s'.char).length
      rw [List.length_set, hmem', hoff', hcount]
      omega
    obtain ⟨ds, m, x, hfound⟩ | hstop := ih hrecv.eintr hok' h
    · exact .inl ⟨_, _, _, found_next (s := s) hrecv hbytes hcs hoff' hmem' hchar (by omega) hfound⟩
    · exact .inr (stopped_next (s := s) hrecv hbytes (by omega) hchar hstop)
  | case6 io s hlen =>
    obtain rfl := Option.some.inj h
    refine .inr ⟨?_, [], List.nil_prefix, List.not_mem_nil, .inr ?_⟩
    · change (-1 : ℤ) ≤ 0
      omega
    · rw [List.length_nil]
      omega

theorem fill_none {s : Readline} {io : Io} (h : s.fill io = none) :
    s.cnt ≤ 1 ∧ io.answers = [] := by
  unfold Readline.fill at h
  split at h
  · next hcnt =>
    split at h
    · next hread =>
      refine ⟨by omega, ?_⟩
      unfold Io.read at hread
      split at hread
      · assumption
      · cases hread
      · cases hread
    · split at h <;> cases h
    · split at h <;> cases h
  · cases h

/-- While a newline is still to come the call returns. -/
theorem readlineLoop_isSome {s : Readline} {io : Io} (heintr : OnlyEintr io)
    (hlocal : s.bp+(s.cnt-1).toNat ≤ s.b.length) (hall : io.recvs.flatten = io.stream)
    (hmem : newline ∈ s.pending ++ io.stream) : (readlineLoop io s).isSome := by
  fun_induction readlineLoop io s with
  | case1 io s hlen hfill =>
    obtain ⟨hcnt, hans⟩ := fill_none hfill
    have hpending : s.pending = [] := pending_eq_nil hcnt
    rw [hpending, ← hall, Io.recvs, hans] at hmem
    cases hmem
  | case2 => rfl
  | case3 io s hlen s' io' hfill ih =>
    obtain ⟨rfl, hcnt, hread⟩ := Readline.fill_again hfill
    have hrecv := (recv_interrupted heintr hread).2
    have hpending : s.pending = [] := pending_eq_nil hcnt
    rw [hpending, hrecv.stream] at hmem
    apply ih hrecv.eintr _ (hrecv.delivered hall) hmem
    change s.bp+((-1 : ℤ)-1).toNat ≤ s.b.length
    omega
  | case4 => rfl
  | case5 io s hlen s' io' hfill hchar ih =>
    obtain ⟨cs, hrecv, hbytes, -, -, -, -, hlocal'⟩ :=
      fill_spec (s := { s with len := s.len-1 }) heintr hlocal hfill
    have hbytes' : s.pending ++ cs.flatten = s'.char :: s'.store.pending := hbytes
    rw [hrecv.stream, ← List.append_assoc, hbytes', List.cons_append] at hmem
    apply ih hrecv.eintr hlocal' (hrecv.delivered hall)
    exact (List.mem_cons.mp hmem).resolve_left fun heq => hchar heq.symm
  | case6 => rfl

theorem readlineLoop_mem_length {s : Readline} {io : Io} {r : Result}
    (h : readlineLoop io s = some r) : r.mem.length = s.mem.length := by
  fun_induction readlineLoop io s with
  | case1 => cases h
  | case2 => obtain rfl := Option.some.inj h; rfl
  | case3 io s hlen s' io' hfill ih =>
    obtain ⟨rfl, -⟩ := Readline.fill_again hfill
    exact ih h
  | case4 io s hlen s' io' hfill hchar =>
    obtain rfl := Option.some.inj h
    have hmem : s'.mem = s.mem := by
      obtain ⟨_, -, -, -, rfl⟩ | ⟨-, -, rfl⟩ := Readline.fill_filled hfill <;> rfl
    change ((s'.mem.set s'.off s'.char).set (s'.off+1) 0).length = s.mem.length
    rw [List.length_set, List.length_set, hmem]
  | case5 io s hlen s' io' hfill hchar ih =>
    have hmem : s'.mem = s.mem := by
      obtain ⟨_, -, -, -, rfl⟩ | ⟨-, -, rfl⟩ := Readline.fill_filled hfill <;> rfl
    rw [ih h]
    change (s'.mem.set s'.off s'.char).length = s.mem.length
    rw [List.length_set, hmem]
  | case6 => obtain rfl := Option.some.inj h; rfl

/-- A call that starts with an empty local buffer: the pieces `before`, without a newline, and one
with a newline between `head` and `x`. -/
structure TookLine (io : Io) (before : List (List UInt8)) (head x : List UInt8) (r : Result) :
    Prop where
  recv : Recv io (before ++ [head ++ newline :: x]) r.io
  first : newline ∉ before.flatten ++ head
  rc : r.rc = toInt ((before.flatten ++ head).length+1)
  mem : r.mem.take ((before.flatten ++ head).length+2) = before.flatten ++ head ++ [newline, 0]

theorem TookLine.stream {io : Io} {before : List (List UInt8)} {head x : List UInt8} {r : Result}
    (h : TookLine io before head x r) :
    io.stream = (before.flatten ++ head) ++ newline :: (x ++ r.io.stream) := by
  rw [h.recv.stream, List.flatten_append, List.flatten_singleton]
  simp only [List.append_assoc, List.cons_append]

theorem readline_spec {io : Io} {mem : List UInt8} {len : ℕ} {r : Result} (hlen : 2 ≤ len)
    (hmem : mem.length = len) (heintr : OnlyEintr io) (h : readline len io mem = some r) :
    r.mem.length = len ∧ ((∃ before head x, TookLine io before head x r) ∨
      (r.rc ≤ 0 ∧ ∃ m, m <+: io.stream ∧ newline ∉ m ∧ (m = io.stream ∨ len ≤ m.length+1))) := by
  unfold readline at h
  rw [if_neg (by omega)] at h
  set s : Readline := ⟨len, 0, List.replicate 1500 0, 0, 0, mem⟩
  have hpending : s.pending = [] := pending_eq_nil zero_le_one
  have hok : s.Ok := by
    refine ⟨Nat.zero_le _, ?_⟩
    change 0+len ≤ mem.length
    omega
  refine ⟨(readlineLoop_mem_length h).trans hmem, ?_⟩
  obtain ⟨cs, m, x, hfound⟩ | hstop := readlineLoop_spec heintr hok h
  · left
    obtain rfl | ⟨before, head, rfl, rfl⟩ := hfound.last
    · have hbytes := hfound.bytes
      rw [hpending] at hbytes
      exact absurd hbytes.symm (List.append_ne_nil_of_right_ne_nil _ (List.cons_ne_nil _ _))
    · have hfirst := hfound.first
      have hrc := hfound.rc
      have htake := hfound.mem
      have hoff : s.off = 0 := rfl
      rw [hpending, List.nil_append] at hfirst hrc htake
      rw [hoff, Nat.zero_add] at hrc htake
      exact ⟨before, head, x, hfound.recv, hfirst, hrc, htake⟩
  · right
    unfold Stopped at hstop
    rw [hpending, List.nil_append] at hstop
    exact hstop

theorem readline_isSome {io : Io} (len : ℕ) (mem : List UInt8) (heintr : OnlyEintr io)
    (hall : io.recvs.flatten = io.stream) (hmem : newline ∈ io.stream) :
    (readline len io mem).isSome := by
  apply readlineLoop_isSome heintr (Nat.zero_le _) hall
  rw [pending_eq_nil zero_le_one]
  exact hmem

/-! Successive calls. -/

/-- What a call is to do for `line`. -/
def DeliveredLine (line : List UInt8) (r : Result) : Prop :=
  r.rc = line.length+1 ∧ r.mem.take (line.length+2) = line ++ [newline, 0]

/-- The k-th call stores the k-th line, with its newline and a terminating zero. -/
def DeliversLines (len : ℕ) (lines : List (List UInt8)) (io : Io) (mem : List UInt8) : Prop :=
  ∃ rs, calls (readline len) lines.length io mem = some rs ∧
    ∀ (k : ℕ) (line : List UInt8) (r : Result), lines[k]? = some line → rs[k]? = some r →
      DeliveredLine line r

/-- Where a piece goes on after a newline, no newline is to come. -/
def NothingAfter (cs : List (List UInt8)) : Prop :=
  ∀ before c after, cs = before ++ c :: after → ∀ x y, c = x ++ newline :: y → y ≠ [] →
    newline ∉ y ++ after.flatten

theorem nothingAfter_of_not_mem {cs : List (List UInt8)} (h : newline ∉ cs.flatten) :
    NothingAfter cs := by
  rintro before c after rfl x y rfl - -
  apply h
  rw [List.flatten_append, List.flatten_cons]
  exact List.mem_append_right _ (List.mem_append_left _
    (List.mem_append_right _ List.mem_cons_self))

/-- The pieces of one line, and the pieces after it. -/
theorem nothingAfter_append {before cs : List (List UInt8)} {head x : List UInt8}
    (hfirst : newline ∉ before.flatten ++ head) (hx : x ≠ [] → newline ∉ x ++ cs.flatten)
    (hcs : NothingAfter cs) : NothingAfter (before ++ (head ++ newline :: x) :: cs) := by
  rw [List.mem_append, not_or] at hfirst
  have hnot : newline ∉ x := by
    intro hmem
    exact hx (List.ne_nil_of_mem hmem) (List.mem_append_left _ hmem)
  -- the piece with the newline has no other one
  have hhere : ∀ y z, head ++ newline :: x = y ++ newline :: z → z = x := by
    intro y z h
    refine (append_cons_unique hfirst.2 (fun hy => ?_) h).2.symm
    have hcount := congrArg (List.count newline) h
    simp only [List.count_append, List.count_cons_self, List.count_eq_zero.mpr hfirst.2,
      List.count_eq_zero.mpr hnot] at hcount
    have hpos := List.count_pos_iff.mpr hy
    omega
  intro before' c after h y z hc hz
  rcases List.append_eq_append_iff.mp h with ⟨k, hk, hrest⟩ | ⟨k, hk, hrest⟩
  · cases k with
    | nil =>
      obtain ⟨hhead, rfl⟩ := List.cons.inj hrest
      rw [hhere y z (hhead.trans hc)] at hz ⊢
      exact hx hz
    | cons d k =>
      obtain ⟨-, rfl⟩ := List.cons.inj hrest
      exact hcs k c after rfl y z hc hz
  · cases k with
    | nil =>
      obtain ⟨hhead, rfl⟩ := List.cons.inj hrest
      rw [hhere y z (hhead.symm.trans hc)] at hz ⊢
      exact hx hz
    | cons d k =>
      -- an earlier piece has no newline
      obtain ⟨rfl, -⟩ := List.cons.inj hrest
      exfalso
      apply hfirst.1
      rw [hk, List.flatten_append, List.flatten_cons, hc]
      exact List.mem_append_right _ (List.mem_append_left _
        (List.mem_append_right _ List.mem_cons_self))

/-- Each call that returns a positive number takes a newline. -/
theorem count_newline_of_calls {len n : ℕ} {io : Io} {mem : List UInt8} {rs : List Result}
    (hlen : 2 ≤ len) (hmem : mem.length = len) (heintr : OnlyEintr io)
    (h : calls (readline len) n io mem = some rs) (hrs : ∀ r ∈ rs, 0 < r.rc) :
    n ≤ io.stream.count newline := by
  induction n generalizing io mem rs with
  | zero => exact Nat.zero_le _
  | succ n ih =>
    obtain ⟨r, rs', hr, hrs', rfl⟩ := calls_succ.mp h
    obtain ⟨hlength, ⟨before, head, x, htook⟩ | ⟨hrc, -⟩⟩ := readline_spec hlen hmem heintr hr
    · have hle := ih hlength htook.recv.eintr hrs' fun q hq => hrs q (List.mem_cons_of_mem _ hq)
      rw [htook.stream]
      simp only [List.count_append, List.count_cons_self]
      omega
    · have hpos := hrs r List.mem_cons_self
      omega

theorem toInt_le (n : ℕ) : toInt n ≤ n := by
  unfold toInt
  rw [Int.bmod_eq_emod]
  split <;> omega

theorem lt_of_toInt_eq {n : ℕ} (h : toInt n = n) : n < 2^31 := by
  have hlt := Int.bmod_lt (x := n) (m := 2^32) (by decide)
  unfold toInt at h
  omega

/-- A line, as it is sent. -/
def withNewline (line : List UInt8) : List UInt8 := line ++ [newline]

/-- What is left of the stream, when the call took the line. -/
theorem TookLine.rest {io : Io} {before : List (List UInt8)} {head x line rest : List UInt8}
    {r : Result} (h : TookLine io before head x r) (hline : newline ∉ line)
    (hstream : io.stream = withNewline line ++ rest) :
    line = before.flatten ++ head ∧ rest = x ++ r.io.stream := by
  apply append_cons_unique hline h.first
  rw [← h.stream, hstream, withNewline, List.append_assoc, List.singleton_append]

/-- A line that fits is taken, however the stream is cut. -/
theorem tookLine_of_stream {io : Io} {mem line rest : List UInt8} {len : ℕ} {r : Result}
    (hlen : line.length+1 ≤ len-1) (hmem : mem.length = len) (heintr : OnlyEintr io)
    (hstream : io.stream = withNewline line ++ rest)
    (h : readline len io mem = some r) : ∃ before head x, TookLine io before head x r := by
  obtain ⟨-, htook | ⟨-, m, hprefix, hfirst, hend⟩⟩ := readline_spec (by omega) hmem heintr h
  · exact htook
  -- the call cannot stop before the newline
  · exfalso
    rw [hstream] at hprefix hend
    have hshort : m.length ≤ line.length := by
      by_contra hlong
      have hle : (withNewline line).length ≤ m.length := by
        rw [withNewline, List.length_append, List.length_singleton]
        omega
      have hsub := List.prefix_of_prefix_length_le (List.prefix_append _ rest) hprefix hle
      exact hfirst (hsub.subset (List.mem_append_right _ (List.mem_singleton_self _)))
    rcases hend with rfl | hend
    · exact hfirst (List.mem_append_left _ (List.mem_append_right _ (List.mem_singleton_self _)))
    · omega

/-- Lines that are still to come hold a newline. -/
theorem eq_nil_of_not_mem {lines : List (List UInt8)} {tail : List UInt8}
    (h : newline ∉ lines.flatMap withNewline ++ tail) : lines = [] := by
  cases lines with
  | nil => rfl
  | cons line lines =>
    exfalso
    apply h
    rw [List.flatMap_cons, List.append_assoc]
    exact List.mem_append_left _ (List.mem_append_right _ (List.mem_singleton_self _))

/-- The calls return the lines when no piece goes on after a newline. -/
theorem readlines_of_nothingAfter {lines : List (List UInt8)} {tail mem : List UInt8} {len : ℕ}
    {io : Io} (hlines : ∀ line ∈ lines, newline ∉ line ∧ line.length+1 ≤ len-1)
    (hint : ∀ line ∈ lines, line.length+1 < 2^31) (hmem : mem.length = len)
    (heintr : OnlyEintr io) (hstream : io.stream = lines.flatMap withNewline ++ tail)
    (hall : io.recvs.flatten = io.stream) (hnothing : NothingAfter io.recvs) :
    DeliversLines len lines io mem := by
  induction lines generalizing io mem with
  | nil => exact ⟨[], rfl, fun k line r hline => by cases hline⟩
  | cons line lines ih =>
    obtain ⟨hline, hfit⟩ := hlines line List.mem_cons_self
    rw [List.flatMap_cons, List.append_assoc] at hstream
    have hnewline : newline ∈ io.stream := by
      rw [hstream]
      exact List.mem_append_left _ (List.mem_append_right _ (List.mem_singleton_self _))
    obtain ⟨r, hr⟩ := Option.isSome_iff_exists.mp
      (readline_isSome len mem heintr hall hnewline)
    obtain ⟨before, head, x, htook⟩ := tookLine_of_stream hfit hmem heintr hstream hr
    obtain ⟨rfl, hrest⟩ := htook.rest hline hstream
    have hdeliver : DeliveredLine (before.flatten ++ head) r := by
      refine ⟨?_, htook.mem⟩
      rw [htook.rc, toInt_of_lt (hint _ List.mem_cons_self)]
      push_cast
      rfl
    have hdrop := htook.recv.delivered hall
    have hafter : x ≠ [] → newline ∉ x ++ r.io.stream := by
      rw [← hdrop]
      apply hnothing before _ r.io.recvs
      · rw [htook.recv.recvs, List.append_assoc]
        rfl
      · rfl
    have hnothing' : NothingAfter r.io.recvs := by
      intro before' c after h
      apply hnothing (before ++ (head ++ newline :: x) :: before') c after
      rw [htook.recv.recvs, h, List.append_assoc, List.append_assoc]
      rfl
    obtain ⟨rs, hrs, hall'⟩ : DeliversLines len lines r.io r.mem := by
      by_cases hx : x = []
      -- the next call starts at the next line
      · rw [hx, List.nil_append] at hrest
        exact ih (fun l hl => hlines l (List.mem_cons_of_mem _ hl))
          (fun l hl => hint l (List.mem_cons_of_mem _ hl))
          (readline_spec (by omega) hmem heintr hr).1 htook.recv.eintr hrest.symm hdrop hnothing'
      · obtain rfl := eq_nil_of_not_mem (hrest ▸ hafter hx)
        exact ⟨[], rfl, fun k line r hline => by cases hline⟩
    refine ⟨r :: rs, calls_succ.mpr ⟨r, rs, hr, hrs, rfl⟩, fun k l q hl hq => ?_⟩
    cases k with
    | zero =>
      rw [List.getElem?_cons_zero] at hl hq
      obtain rfl := Option.some.inj hl
      obtain rfl := Option.some.inj hq
      exact hdeliver
    | succ k => exact hall' k l q hl hq

theorem count_newline_lines {lines : List (List UInt8)} {tail : List UInt8}
    (hlines : ∀ line ∈ lines, newline ∉ line) (htail : newline ∉ tail) :
    (lines.flatMap withNewline ++ tail).count newline = lines.length := by
  induction lines with
  | nil => exact List.count_eq_zero.mpr htail
  | cons line lines ih =>
    have hrest := ih fun l hl => hlines l (List.mem_cons_of_mem _ hl)
    have hline := List.count_eq_zero.mpr (hlines line List.mem_cons_self)
    rw [List.flatMap_cons, List.append_assoc, List.count_append, hrest, withNewline,
      List.count_append, hline, List.count_singleton_self, List.length_cons]
    omega

/-- After `x` was lost the calls cannot return all lines that are left: `x` holds no newline, for
each call takes one, and then the next call returns too few bytes. -/
theorem no_lines_after_loss {lines : List (List UInt8)} {tail x mem : List UInt8} {len : ℕ}
    {io : Io} {rs : List Result} (hlen : 2 ≤ len) (hmem : mem.length = len)
    (hlines : ∀ line ∈ lines, newline ∉ line) (htail : newline ∉ tail) (heintr : OnlyEintr io)
    (hstream : lines.flatMap withNewline ++ tail = x ++ io.stream) (hx : x ≠ [])
    (hrs : calls (readline len) lines.length io mem = some rs)
    (hdeliver : ∀ (k : ℕ) (line : List UInt8) (r : Result), lines[k]? = some line →
      rs[k]? = some r → DeliveredLine line r) : lines = [] := by
  obtain _ | ⟨line, lines⟩ := lines
  · rfl
  exfalso
  have hpositive : ∀ r ∈ rs, 0 < r.rc := by
    intro r hr
    obtain ⟨k, hk, rfl⟩ := List.mem_iff_getElem.mp hr
    have hlt : k < (line :: lines).length := by rwa [← calls_length hrs]
    have hrc := (hdeliver k _ _ (List.getElem?_eq_getElem hlt) (List.getElem?_eq_getElem hk)).1
    omega
  have htaken := count_newline_of_calls hlen hmem heintr hrs hpositive
  have htotal := count_newline_lines hlines htail
  rw [hstream, List.count_append] at htotal
  have hnot : newline ∉ x := List.count_eq_zero.mp (by omega)
  -- the next call
  obtain ⟨r, rs', hr, hrs', rfl⟩ := calls_succ.mp hrs
  have hrc := (hdeliver 0 line r rfl rfl).1
  obtain ⟨-, ⟨before, head, y, htook⟩ | ⟨hneg, -⟩⟩ := readline_spec hlen hmem heintr hr
  · have hcut : line = x ++ (before.flatten ++ head) := by
      rw [htook.stream, ← List.append_assoc, List.flatMap_cons, withNewline, List.append_assoc,
        List.append_assoc, List.singleton_append] at hstream
      refine (append_cons_unique (hlines line List.mem_cons_self) (fun hmem => ?_) hstream).1
      exact (List.mem_append.mp hmem).elim hnot htook.first
    have hle := toInt_le ((before.flatten ++ head).length+1)
    have hpos := List.length_pos_iff.mpr hx
    rw [← htook.rc, hrc, hcut, List.length_append] at hle
    push_cast at hle
    omega
  · omega

/-- Calls that return the lines have lost nothing. -/
theorem nothingAfter_of_readlines {lines : List (List UInt8)} {tail mem : List UInt8} {len : ℕ}
    {io : Io} {rs : List Result} (hlines : ∀ line ∈ lines, newline ∉ line ∧ line.length+1 ≤ len-1)
    (htail : newline ∉ tail) (hmem : mem.length = len) (heintr : OnlyEintr io)
    (hstream : io.stream = lines.flatMap withNewline ++ tail)
    (hall : io.recvs.flatten = io.stream)
    (hrs : calls (readline len) lines.length io mem = some rs)
    (hdeliver : ∀ (k : ℕ) (line : List UInt8) (r : Result), lines[k]? = some line →
      rs[k]? = some r → DeliveredLine line r) :
    (∀ line ∈ lines, line.length+1 < 2^31) ∧ NothingAfter io.recvs := by
  induction lines generalizing io mem rs with
  | nil =>
    refine ⟨fun line hline => absurd hline List.not_mem_nil, nothingAfter_of_not_mem ?_⟩
    rw [hall, hstream]
    exact htail
  | cons line lines ih =>
    obtain ⟨hline, hfit⟩ := hlines line List.mem_cons_self
    have hlines' : ∀ l ∈ lines, newline ∉ l ∧ l.length+1 ≤ len-1 :=
      fun l hl => hlines l (List.mem_cons_of_mem _ hl)
    rw [List.flatMap_cons, List.append_assoc] at hstream
    obtain ⟨r, rs', hr, hrs', rfl⟩ := calls_succ.mp hrs
    obtain ⟨before, head, x, htook⟩ := tookLine_of_stream hfit hmem heintr hstream hr
    obtain ⟨rfl, hrest⟩ := htook.rest hline hstream
    have hlength := (readline_spec (by omega) hmem heintr hr).1
    have hfirst := hdeliver 0 _ r rfl rfl
    have hnext : ∀ (k : ℕ) (line : List UInt8) (r : Result), lines[k]? = some line →
        rs'[k]? = some r → DeliveredLine line r := fun k => hdeliver (k+1)
    have hint : (before.flatten ++ head).length+1 < 2^31 := by
      apply lt_of_toInt_eq
      rw [← htook.rc, hfirst.1]
      push_cast
      rfl
    have hdrop := htook.recv.delivered hall
    have hsplit : io.recvs = before ++ (head ++ newline :: x) :: r.io.recvs := by
      rw [htook.recv.recvs, List.append_assoc]
      rfl
    by_cases hx : x = []
    · subst hx
      obtain ⟨hints, hnothing⟩ := ih hlines' hlength htook.recv.eintr hrest.symm hdrop hrs' hnext
      refine ⟨fun l hl => ?_, ?_⟩
      · rcases List.mem_cons.mp hl with rfl | hl
        · exact hint
        · exact hints l hl
      · rw [hsplit]
        exact nothingAfter_append htook.first (fun h => absurd rfl h) hnothing
    · -- bytes were lost, so this was the last line
      have hnil : lines = [] :=
        no_lines_after_loss (by omega) hlength (fun l hl => (hlines' l hl).1) htail
          htook.recv.eintr hrest hx hrs' hnext
      subst hnil
      have hlast : newline ∉ x ++ r.io.recvs.flatten := by
        rw [hdrop, ← hrest]
        exact htail
      refine ⟨fun l hl => ?_, ?_⟩
      · rw [List.mem_singleton.mp hl]
        exact hint
      · rw [hsplit]
        refine nothingAfter_append htook.first (fun _ => hlast) (nothingAfter_of_not_mem ?_)
        exact fun h => hlast (List.mem_append_right _ h)

/-- Successive calls return successive lines exactly when every line's length is an `int` and no
piece that `recv` returned goes on after a newline while another newline is to come. -/
theorem readline_delivers_iff (lines : List (List UInt8)) (tail mem : List UInt8) (len : ℕ)
    (io : Io) (hmem : mem.length = len)
    (hlines : ∀ line ∈ lines, newline ∉ line ∧ line.length+1 ≤ len-1) (htail : newline ∉ tail)
    (heintr : OnlyEintr io) (hstream : io.stream = lines.flatMap withNewline ++ tail)
    (hall : io.recvs.flatten = io.stream) :
    DeliversLines len lines io mem ↔
      (∀ line ∈ lines, line.length+1 < 2^31) ∧ NothingAfter io.recvs := by
  constructor
  · rintro ⟨rs, hrs, hdeliver⟩
    exact nothingAfter_of_readlines hlines htail hmem heintr hstream hall hrs hdeliver
  · rintro ⟨hint, hnothing⟩
    exact readlines_of_nothingAfter hlines hint hmem heintr hstream hall hnothing

/-- Two lines, the first in two pieces. -/
theorem readline_delivers_pieces :
    DeliversLines 10 [[97, 98], [99]] ⟨[97, 98, 10, 99, 10],
      [.give 0, .fail EINTR, .give 1, .give 7], 0⟩ (List.replicate 10 0) := by
  apply (readline_delivers_iff [[97, 98], [99]] [] (List.replicate 10 0) 10 _ (by decide)
    (by decide) (by decide) _ (by decide) (by decide)).mpr
  · refine ⟨by decide, ?_⟩
    have hlast : NothingAfter ([] ++ ([99] ++ newline :: []) :: []) :=
      nothingAfter_append (by decide) (fun h => absurd rfl h) (nothingAfter_of_not_mem (by decide))
    have hfirst : NothingAfter ([[97]] ++ ([98] ++ newline :: []) :: [[99, newline]]) :=
      nothingAfter_append (by decide) (fun h => absurd rfl h) hlast
    exact hfirst
  · intro e he
    simpa using he

/-- Two lines that come in one piece: the second call finds the end of the stream. -/
theorem readline_loses_line :
    ¬ ∀ (lines : List (List UInt8)) (tail mem : List UInt8) (len : ℕ) (io : Io), 2 ≤ len →
      mem.length = len → (∀ line ∈ lines, newline ∉ line ∧ line.length+1 ≤ len-1) →
      newline ∉ tail → OnlyEintr io → io.stream = lines.flatMap withNewline ++ tail →
      io.recvs.flatten = io.stream → DeliversLines len lines io mem := by
  intro hall
  let io : Io := ⟨[97, 10, 98, 10], [.give 1499, .give 1499], 0⟩
  have heintr : OnlyEintr io := by
    intro e he
    simp [io] at he
  obtain ⟨rs, hrs, hdeliver⟩ := hall [[97], [98]] [] (List.replicate 10 0) 10 io (by decide)
    (by decide) (by decide) (by decide) heintr (by decide) (by decide)
  have hrc : (calls (readline 10) 2 io (List.replicate 10 0)).map (fun rs => rs.map Result.rc) =
      some [2, 0] := by
    decide +kernel
  change calls (readline 10) 2 io (List.replicate 10 0) = some rs at hrs
  rw [hrs, Option.map_some, Option.some_inj] at hrc
  obtain ⟨r₁, r₂, rfl⟩ := List.length_eq_two.mp (calls_length hrs)
  have hsecond := (hdeliver 1 [98] r₂ rfl rfl).1
  have hzero : r₂.rc = 0 := (List.cons.inj (List.cons.inj hrc).2).1
  rw [hzero] at hsecond
  cases hsecond

end LinuxPrograms.Etcp
