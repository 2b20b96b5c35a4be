import LinuxPrograms.LibRecords

/-! `readn` and `readvrec` (etcp.c) on a descriptor whose stream the kernel hands out in any pieces.
`readvrec` returns the records one by one, and a record that is too large for the caller's buffer
is skipped whole. -/
namespace LinuxPrograms.Etcp
open Lib

/-- `errno` values. -/
def EINTR : ℕ := 4
def EMSGSIZE : ℕ := 90

/-- What a call of `read` or `recv` meets: it fails, or at most `n+1` bytes are at hand. -/
inductive Answer
  | fail (errno : ℕ)
  | give (n : ℕ)

/-- A descriptor and the process's `errno`. `stream` is what the peer sent and nobody took yet, and
the peer has closed after it. -/
structure Io where
  stream : List UInt8
  answers : List Answer
  errno : ℕ

/-- The result of `read(fd, buf, count)`: `none` for -1, else the bytes put into `buf`. -/
abbrev Got := Option (List UInt8)

/-- `read(fd, buf, count)`; no answer is a call that does not return. -/
def Io.read (io : Io) (count : ℕ) : Option (Got × Io) :=
  match io.answers with
  | [] => none
  | .fail e :: answers => some (none, { io with answers := answers, errno := e })
  | .give n :: answers =>
    let got := io.stream.take (min (n+1) count)
    some (some got, { io with stream := io.stream.drop got.length, answers := answers })

theorem Io.read_answers_lt {io io' : Io} {count : ℕ} {got : Got}
    (h : io.read count = some (got, io')) : io'.answers.length < io.answers.length := by
  unfold Io.read at h
  split at h
  · cases h
  · next ha => cases h; rw [ha]; exact Nat.lt_succ_self _
  · next ha => cases h; rw [ha]; exact Nat.lt_succ_self _

/-! C conversions: to `int`, and of an `int` to `size_t` and to `u_int32_t`. -/

def toInt (n : ℕ) : ℤ := Int.bmod n (2^32)

def toSize (rc : ℤ) : ℕ := (rc % 2^64).toNat

def toU32 (rc : ℤ) : ℕ := (rc % 2^32).toNat

/-- What a call returned, the memory it was given and the descriptor afterwards. -/
structure Result where
  rc : ℤ
  mem : List UInt8
  io : Io

/-- The loop of `readn`; `buf` points to `mem + totRead`. -/
def readnLoop (io : Io) (mem : List UInt8) (len totRead : ℕ) : Option Result :=
  if totRead < len then
    match h : io.read (len-totRead) with
    | none => none
    | some (none, io') =>
      if io'.errno = EINTR then readnLoop io' mem len totRead else some ⟨-1, mem, io'⟩
    | some (some got, io') =>
      if got.length = 0 then some ⟨toInt totRead, mem, io'⟩
      else readnLoop io' (copyTo mem totRead got) len (totRead+got.length)
  else some ⟨toInt totRead, mem, io⟩
termination_by io.answers.length
decreasing_by
  · exact Io.read_answers_lt h
  · exact Io.read_answers_lt h

/-- `readn(fd, buf, len)`. -/
def readn (io : Io) (mem : List UInt8) (len : ℕ) : Option Result := readnLoop io mem len 0

/-- `return rc < 0 ? -1 : 0`. -/
def shortRc (rc : ℤ) : ℤ := if rc < 0 then -1 else 0

/-- The loop that discards a record. A round with `len > 0` lowers `reclen`, so that `reclen` rounds
are enough; with `len = 0` the loop does not end. -/
def discard : ℕ → Io → List UInt8 → ℕ → ℕ → Option Result
  | rounds, io, mem, reclen, len =>
    if reclen > 0 then
      match rounds with
      | 0 => none
      | rounds+1 => do
        let r ← readn io mem len
        if toSize r.rc ≠ len then
          return { r with rc := shortRc r.rc }
        let reclen := toU32 (reclen-len)
        let len := if reclen < len then reclen else len
        discard rounds r.io r.mem reclen len
    else some ⟨-1, mem, { io with errno := EMSGSIZE }⟩

/-- `readvrec(fd, bp, len)`. -/
def readvrec (io : Io) (mem : List UInt8) (len : ℕ) : Option Result := do
  let h ← readn io (leBytes 0) 4
  if toSize h.rc ≠ 4 then
    return ⟨shortRc h.rc, mem, h.io⟩
  let reclen := ntohl (leNat h.mem)
  if reclen > len then
    discard reclen h.io mem reclen len
  else
    let r ← readn h.io mem reclen
    if toU32 r.rc ≠ reclen then
      return { r with rc := shortRc r.rc }
    return r

/-! What the calls take from the stream. -/

/-- Every failure to come is an interruption. -/
def OnlyEintr (io : Io) : Prop := ∀ e, Answer.fail e ∈ io.answers → e = EINTR

def Answer.isGive : Answer → Bool
  | .fail _ => false
  | .give _ => true

/-- How many calls to come will not fail. -/
def Io.gives (io : Io) : ℕ := io.answers.countP Answer.isGive

/-- From `io` to `io'`, `m` bytes were taken, with at most `m` calls that did not fail. -/
structure Took (io : Io) (m : ℕ) (io' : Io) : Prop where
  stream : io'.stream = io.stream.drop m
  eintr : OnlyEintr io'
  gives : io.gives ≤ io'.gives+m

theorem Took.refl {io : Io} (h : OnlyEintr io) : Took io 0 io := ⟨rfl, h, le_rfl⟩

theorem Took.trans {io io' io'' : Io} {m n : ℕ} (h : Took io m io') (h' : Took io' n io'') :
    Took io (m+n) io'' where
  stream := by rw [h'.stream, h.stream, List.drop_drop]
  eintr := h'.eintr
  gives := by
    have h₁ := h.gives
    have h₂ := h'.gives
    omega

theorem Took.length {io io' : Io} {m : ℕ} (h : Took io m io') :
    io'.stream.length = io.stream.length-m := by
  rw [h.stream, List.length_drop]

/-- A call of `read` that fails, fails with the next answer. -/
theorem read_fail {io io' : Io} {count : ℕ} (h : io.read count = some (none, io')) :
    ∃ e answers, io.answers = .fail e :: answers ∧ io' = { io with answers, errno := e } := by
  unfold Io.read at h
  split at h
  · cases h
  · next e answers ha =>
    cases h
    exact ⟨e, answers, ha, rfl⟩
  · cases h

/-- A call of `read` that does not fail takes what the next answer lets it. -/
theorem read_give {io io' : Io} {count : ℕ} {l : List UInt8}
    (h : io.read count = some (some l, io')) :
    ∃ n answers, io.answers = .give n :: answers ∧ l = io.stream.take (min (n+1) count) ∧
      io' = { io with stream := io.stream.drop l.length, answers } := by
  unfold Io.read at h
  split at h
  · cases h
  · cases h
  · next n answers ha =>
    cases h
    exact ⟨n, answers, ha, rfl, rfl⟩

/-- The answers that are left are interruptions or bytes, too. -/
theorem OnlyEintr.tail {io : Io} {a : Answer} {answers : List Answer} (h : OnlyEintr io)
    (ha : io.answers = a :: answers) : ∀ e, Answer.fail e ∈ answers → e = EINTR := by
  intro e he
  apply h e
  rw [ha]
  exact List.mem_cons_of_mem a he

/-- An interrupted call takes nothing. -/
theorem read_interrupted {io io' : Io} {count : ℕ} (heintr : OnlyEintr io)
    (h : io.read count = some (none, io')) : io'.errno = EINTR ∧ Took io 0 io' := by
  obtain ⟨e, answers, ha, rfl⟩ := read_fail h
  have herr : e = EINTR := by
    apply heintr e
    rw [ha]
    exact List.mem_cons_self
  refine ⟨herr, rfl, heintr.tail ha, ?_⟩
  change io.answers.countP Answer.isGive ≤ answers.countP Answer.isGive
  rw [ha]
  exact (List.countP_cons_of_neg Bool.false_ne_true).le

/-- A call that does not fail takes the bytes it returns, one at least while there is any. -/
theorem read_took {io io' : Io} {count : ℕ} {l : List UInt8} (heintr : OnlyEintr io)
    (h : io.read count = some (some l, io')) (hcount : 0 < count) (hpos : 0 < io.stream.length) :
    io.stream = l ++ io'.stream ∧ l.length ≤ count ∧ 0 < l.length ∧ Took io l.length io' := by
  obtain ⟨n, answers, ha, hl, rfl⟩ := read_give h
  have hlen : l.length = min (min (n+1) count) io.stream.length := by
    rw [hl, List.length_take]
  have hprefix : l = io.stream.take l.length := by
    rw [hl]
    exact List.prefix_iff_eq_take.mp (List.take_prefix (min (n+1) count) io.stream)
  have hsplit : io.stream = l ++ io.stream.drop l.length := by
    calc io.stream
        = io.stream.take l.length ++ io.stream.drop l.length :=
          (List.take_append_drop l.length io.stream).symm
      _ = l ++ io.stream.drop l.length := by rw [← hprefix]
  refine ⟨hsplit, by omega, by omega, rfl, heintr.tail ha, ?_⟩
  -- the one call that did not fail took a byte at least
  have hgives : (Answer.give n :: answers).countP Answer.isGive =
      answers.countP Answer.isGive+1 := List.countP_cons_of_pos rfl
  change io.answers.countP Answer.isGive ≤ answers.countP Answer.isGive+l.length
  rw [ha, hgives]
  omega

/-- A call of `read` that does not return has no answer. -/
theorem read_none {io : Io} {count : ℕ} (h : io.read count = none) : io.answers = [] := by
  unfold Io.read at h
  split at h
  · assumption
  · cases h
  · cases h

theorem read_eq_none {io : Io} {count : ℕ} (h : io.read count = none) : io.gives = 0 := by
  rw [Io.gives, read_none h, List.countP_nil]

theorem toInt_of_lt {n : ℕ} (h : n < 2^31) : toInt n = n := by
  apply Int.bmod_eq_of_le <;> omega

theorem toSize_natCast {n : ℕ} (h : n < 2^64) : toSize n = n := by
  unfold toSize
  omega

theorem toU32_natCast {n : ℕ} (h : n < 2^32) : toU32 n = n := by
  unfold toU32
  omega

/-- The loop of `readn` takes exactly what is still missing, when the stream holds it. -/
theorem readnLoop_spec {io : Io} {mem : List UInt8} {len totRead : ℕ} {r : Result}
    (heintr : OnlyEintr io) (htot : totRead ≤ len) (hmem : totRead ≤ mem.length)
    (hstream : len-totRead ≤ io.stream.length) (h : readnLoop io mem len totRead = some r) :
    r.rc = toInt len ∧ r.mem = copyTo mem totRead (io.stream.take (len-totRead)) ∧
    Took io (len-totRead) r.io := by
  fun_induction readnLoop io mem len totRead with
  | case1 io mem totRead hlt hread => cases h
  | case2 io mem totRead hlt io' hread herr ih =>
    -- interrupted
    obtain ⟨-, htook⟩ := read_interrupted heintr hread
    obtain ⟨hrc, hm, ht⟩ := ih htook.eintr htot hmem (by rw [htook.stream]; exact hstream) h
    rw [htook.stream] at hm
    exact ⟨hrc, hm, by simpa using htook.trans ht⟩
  | case3 io mem totRead hlt io' hread herr =>
    exact absurd (read_interrupted heintr hread).1 herr
  | case4 io mem totRead hlt got io' hread hgot =>
    -- the end of the stream is not met
    obtain ⟨-, -, hpos, -⟩ := read_took heintr hread (by omega) (by omega)
    omega
  | case5 io mem totRead hlt got io' hread hgot ih =>
    obtain ⟨hsplit, hle, -, ht⟩ := read_took heintr hread (by omega) (by omega)
    have hmem' : totRead+got.length ≤ (copyTo mem totRead got).length := by
      rw [copyTo, List.length_append, List.length_append, List.length_take]
      omega
    have hstream' : len-(totRead+got.length) ≤ io'.stream.length := by
      rw [ht.length]
      omega
    obtain ⟨hrc, hm, hend⟩ := ih ht.eintr (by omega) hmem' hstream' h
    have htake : io.stream.take (len-totRead) =
        got ++ io'.stream.take (len-(totRead+got.length)) := by
      rw [hsplit, List.take_append, List.take_of_length_le hle, Nat.sub_sub]
    have hsum : got.length+(len-(totRead+got.length)) = len-totRead := by omega
    refine ⟨hrc, ?_, ?_⟩
    · rw [hm, copyTo_copyTo hmem, ← htake]
    · rw [← hsum]
      exact ht.trans hend
  | case6 io mem totRead hlt =>
    have hz : len-totRead = 0 := by omega
    have heq : totRead = len := by omega
    obtain rfl := Option.some.inj h
    rw [hz, List.take_zero]
    refine ⟨by rw [heq], ?_, Took.refl heintr⟩
    rw [copyTo, List.append_nil]
    exact (List.take_append_drop totRead mem).symm

/-- It returns once enough calls of `read` do not fail. -/
theorem readnLoop_isSome {io : Io} {mem : List UInt8} {len totRead : ℕ} (heintr : OnlyEintr io)
    (hstream : len-totRead ≤ io.stream.length) (hgives : len-totRead ≤ io.gives) :
    (readnLoop io mem len totRead).isSome := by
  fun_induction readnLoop io mem len totRead with
  | case1 io mem totRead hlt hread =>
    have hz := read_eq_none hread
    omega
  | case2 io mem totRead hlt io' hread herr ih =>
    obtain ⟨-, ht⟩ := read_interrupted heintr hread
    have hg := ht.gives
    exact ih ht.eintr (by rw [ht.stream]; exact hstream) (by omega)
  | case3 => rfl
  | case4 => rfl
  | case5 io mem totRead hlt got io' hread hgot ih =>
    obtain ⟨-, -, -, ht⟩ := read_took heintr hread (by omega) (by omega)
    have hg := ht.gives
    exact ih ht.eintr (by rw [ht.length]; omega) (by omega)
  | case6 => rfl

/-- `readn` takes `len` bytes when the stream holds them. -/
theorem readn_spec {io : Io} {mem : List UInt8} {len : ℕ} {r : Result} (heintr : OnlyEintr io)
    (hlt : len < 2^31) (hstream : len ≤ io.stream.length) (h : readn io mem len = some r) :
    r.rc = len ∧ r.mem = copyTo mem 0 (io.stream.take len) ∧ Took io len r.io := by
  obtain ⟨hrc, hmem, ht⟩ := readnLoop_spec heintr (Nat.zero_le len) (Nat.zero_le _) hstream h
  exact ⟨hrc.trans (toInt_of_lt hlt), hmem, ht⟩

theorem readn_isSome {io : Io} {len : ℕ} (mem : List UInt8) (heintr : OnlyEintr io)
    (hstream : len ≤ io.stream.length) (hgives : len ≤ io.gives) :
    (readn io mem len).isSome :=
  readnLoop_isSome heintr hstream hgives

/-! `readvrec`. -/

/-- The lengths in the next round of `discard`. -/
theorem discard_lengths {reclen len : ℕ} (hle : len ≤ reclen) (hlt : reclen < 2^32) :
    toU32 (reclen-len) = reclen-len := by
  rw [← Int.ofNat_sub hle]
  exact toU32_natCast (by omega)

/-- The loop takes the whole record. -/
theorem discard_spec {rounds reclen len : ℕ} {io : Io} {mem : List UInt8} {r : Result}
    (heintr : OnlyEintr io) (hrounds : reclen ≤ rounds) (hle : len ≤ reclen)
    (hpos : 0 < reclen → 0 < len) (hlt : reclen < 2^32) (hlen : len < 2^31)
    (hstream : reclen ≤ io.stream.length) (h : discard rounds io mem reclen len = some r) :
    r.rc = -1 ∧ r.io.errno = EMSGSIZE ∧ Took io reclen r.io := by
  induction rounds generalizing io mem reclen len with
  | zero =>
    have hz : reclen = 0 := by omega
    subst hz
    obtain rfl := Option.some.inj h
    exact ⟨rfl, rfl, rfl, heintr, le_rfl⟩
  | succ rounds ih =>
    unfold discard at h
    by_cases hrec : reclen > 0
    · rw [if_pos hrec] at h
      obtain ⟨q, hq, h⟩ := Option.bind_eq_some_iff.mp h
      obtain ⟨hrc, -, ht⟩ := readn_spec heintr hlen (by omega) hq
      have hsize : toSize q.rc = len := by
        rw [hrc]
        exact toSize_natCast (by omega)
      rw [if_neg (not_not.mpr hsize), discard_lengths hle hlt] at h
      have hlenpos := hpos hrec
      have hstream' : reclen-len ≤ q.io.stream.length := by
        rw [ht.length]
        omega
      -- the last piece is shorter
      have hnext : (if reclen-len < len then reclen-len else len) ≤ reclen-len := by
        split <;> omega
      obtain ⟨hend, herr, ht'⟩ := ih ht.eintr (by omega) hnext
        (by intro hp; split <;> omega) (by omega) (by split <;> omega) hstream' h
      have hsum := ht.trans ht'
      rw [Nat.add_sub_cancel' hle] at hsum
      exact ⟨hend, herr, hsum⟩
    · have hz : reclen = 0 := by omega
      subst hz
      obtain rfl := Option.some.inj h
      exact ⟨rfl, rfl, rfl, heintr, le_rfl⟩

theorem discard_isSome {rounds reclen len : ℕ} {io : Io} (mem : List UInt8)
    (heintr : OnlyEintr io) (hrounds : reclen ≤ rounds) (hle : len ≤ reclen)
    (hpos : 0 < reclen → 0 < len) (hlt : reclen < 2^32) (hlen : len < 2^31)
    (hstream : reclen ≤ io.stream.length) (hgives : reclen ≤ io.gives) :
    (discard rounds io mem reclen len).isSome := by
  induction rounds generalizing io mem reclen len with
  | zero =>
    have hz : reclen = 0 := by omega
    subst hz
    rfl
  | succ rounds ih =>
    unfold discard
    by_cases hrec : reclen > 0
    · rw [if_pos hrec]
      obtain ⟨q, hq⟩ := Option.isSome_iff_exists.mp
        (readn_isSome mem heintr (by omega : len ≤ io.stream.length) (by omega))
      obtain ⟨hrc, -, ht⟩ := readn_spec heintr hlen (by omega) hq
      have hsize : toSize q.rc = len := by
        rw [hrc]
        exact toSize_natCast (by omega)
      change (Option.bind (readn io mem len) _).isSome
      rw [hq, Option.bind_some, if_neg (not_not.mpr hsize), discard_lengths hle hlt]
      have hlenpos := hpos hrec
      have hg := ht.gives
      apply ih q.mem ht.eintr (by omega)
      · split <;> omega
      · intro hp
        split <;> omega
      · omega
      · split <;> omega
      · rw [ht.length]
        omega
      · omega
    · rw [if_neg hrec]
      rfl

/-- A record as it is sent: its length, and its bytes. -/
def encode (record : List UInt8) : List UInt8 := beBytes record.length ++ record

/-- What a call is to return for `record` when the buffer has `len` bytes. -/
def Delivered (len : ℕ) (record : List UInt8) (r : Result) : Prop :=
  if record.length ≤ len then r.rc = record.length ∧ r.mem.take record.length = record
  else r.rc = -1 ∧ r.io.errno = EMSGSIZE

/-- The header of a record is read back. -/
theorem readn_header {io : Io} {record rest : List UInt8} {h : Result} (heintr : OnlyEintr io)
    (hrecord : record.length < 2^32) (hstream : io.stream = encode record ++ rest)
    (hread : readn io (leBytes 0) 4 = some h) :
    toSize h.rc = 4 ∧ ntohl (leNat h.mem) = record.length ∧ h.io.stream = record ++ rest ∧
    Took io 4 h.io := by
  rw [encode, List.append_assoc] at hstream
  have hfour : 4 ≤ io.stream.length := by
    rw [hstream, List.length_append, beBytes_length]
    omega
  obtain ⟨hrc, hmem, ht⟩ := readn_spec heintr (by decide) hfour hread
  have hbytes : h.mem = beBytes record.length := by
    rw [hmem, hstream, ← beBytes_length record.length, List.take_left]
    exact List.append_nil _
  refine ⟨by rw [hrc]; rfl, ?_, ?_, ht⟩
  · rw [hbytes, ntohl_leNat (beBytes_length _), beNat_beBytes _ hrecord]
  · rw [ht.stream, hstream, ← beBytes_length record.length, List.drop_left]

/-- One call, when the next record is `record`. -/
theorem readvrec_spec {io : Io} {mem record rest : List UInt8} {len : ℕ} {r : Result}
    (heintr : OnlyEintr io) (hrecord : record.length < 2^32) (hpos : 1 ≤ len) (hlen : len < 2^31)
    (hstream : io.stream = encode record ++ rest) (h : readvrec io mem len = some r) :
    Delivered len record r ∧ r.io.stream = rest ∧ Took io (encode record).length r.io := by
  obtain ⟨q, hq, h⟩ := Option.bind_eq_some_iff.mp h
  obtain ⟨hsize, hreclen, hrest, hhead⟩ := readn_header heintr hrecord hstream hq
  have henough : record.length ≤ q.io.stream.length := by
    rw [hrest, List.length_append]
    omega
  have hcode : (encode record).length = 4+record.length := by
    rw [encode, List.length_append, beBytes_length]
  rw [if_neg (not_not.mpr hsize), hreclen] at h
  unfold Delivered
  by_cases hbig : record.length > len
  · rw [if_pos hbig] at h
    obtain ⟨hrc, herr, ht⟩ := discard_spec hhead.eintr le_rfl hbig.le (fun _ => hpos) hrecord hlen
      henough h
    refine ⟨?_, by rw [ht.stream, hrest, List.drop_left], by rw [hcode]; exact hhead.trans ht⟩
    rw [if_neg (by omega)]
    exact ⟨hrc, herr⟩
  · rw [if_neg hbig] at h
    obtain ⟨p, hp, h⟩ := Option.bind_eq_some_iff.mp h
    obtain ⟨hrc, hmem, ht⟩ := readn_spec hhead.eintr (by omega) henough hp
    have hu : toU32 p.rc = record.length := by rw [hrc, toU32_natCast hrecord]
    rw [if_neg (not_not.mpr hu)] at h
    obtain rfl := Option.some.inj h
    refine ⟨?_, by rw [ht.stream, hrest, List.drop_left], by rw [hcode]; exact hhead.trans ht⟩
    rw [if_pos (by omega)]
    refine ⟨hrc, ?_⟩
    rw [hmem, hrest, List.take_left, copyTo, List.take_zero, List.nil_append, List.take_left]

theorem readvrec_isSome {io : Io} {record rest : List UInt8} {len : ℕ} (mem : List UInt8)
    (heintr : OnlyEintr io) (hrecord : record.length < 2^32) (hpos : 1 ≤ len) (hlen : len < 2^31)
    (hstream : io.stream = encode record ++ rest) (hgives : (encode record).length ≤ io.gives) :
    (readvrec io mem len).isSome := by
  have hcode : (encode record).length = 4+record.length := by
    rw [encode, List.length_append, beBytes_length]
  have hfour : 4 ≤ io.stream.length := by
    rw [hstream, List.length_append]
    omega
  obtain ⟨q, hq⟩ := Option.isSome_iff_exists.mp
    (readn_isSome (leBytes 0) heintr hfour (by omega))
  obtain ⟨hsize, hreclen, hrest, hhead⟩ := readn_header heintr hrecord hstream hq
  have henough : record.length ≤ q.io.stream.length := by
    rw [hrest, List.length_append]
    omega
  have hg := hhead.gives
  change (Option.bind (readn io (leBytes 0) 4) _).isSome
  rw [hq, Option.bind_some, if_neg (not_not.mpr hsize), hreclen]
  by_cases hbig : record.length > len
  · rw [if_pos hbig]
    exact discard_isSome mem hhead.eintr le_rfl hbig.le (fun _ => hpos) hrecord hlen henough
      (by omega)
  · rw [if_neg hbig]
    obtain ⟨p, hp⟩ := Option.isSome_iff_exists.mp
      (readn_isSome mem hhead.eintr henough (by omega))
    change (Option.bind (readn q.io mem record.length) _).isSome
    rw [hp, Option.bind_some]
    split <;> rfl

/-- `n` calls, one after the other, with one buffer. -/
def calls (call : Io → List UInt8 → Option Result) : ℕ → Io → List UInt8 → Option (List Result)
  | 0, _, _ => some []
  | n+1, io, mem => do
    let r ← call io mem
    let rs ← calls call n r.io r.mem
    return r :: rs

/-- The first call, and the calls after it. -/
theorem calls_succ {call : Io → List UInt8 → Option Result} {n : ℕ} {io : Io} {mem : List UInt8}
    {rs : List Result} :
    calls call (n+1) io mem = some rs ↔
      ∃ r rs', call io mem = some r ∧ calls call n r.io r.mem = some rs' ∧ rs = r :: rs' := by
  constructor
  · intro h
    obtain ⟨r, hr, h⟩ := Option.bind_eq_some_iff.mp h
    obtain ⟨rs', hrs', h⟩ := Option.bind_eq_some_iff.mp h
    exact ⟨r, rs', hr, hrs', (Option.some.inj h).symm⟩
  · rintro ⟨r, rs', hr, hrs', rfl⟩
    refine Option.bind_eq_some_iff.mpr ⟨r, hr, ?_⟩
    exact Option.bind_eq_some_iff.mpr ⟨rs', hrs', rfl⟩

theorem calls_length {call : Io → List UInt8 → Option Result} {n : ℕ} {io : Io}
    {mem : List UInt8} {rs : List Result} (h : calls call n io mem = some rs) : rs.length = n := by
  induction n generalizing io mem rs with
  | zero =>
    obtain rfl := Option.some.inj h
    rfl
  | succ n ih =>
    obtain ⟨r, rs', -, hrs', rfl⟩ := calls_succ.mp h
    rw [List.length_cons, ih hrs']

def readvrecs (len : ℕ) : ℕ → Io → List UInt8 → Option (List Result) :=
  calls (fun io mem => readvrec io mem len)

/-- The k-th call delivers the k-th record and leaves the stream at the next one, whatever the sizes
of the records and of the pieces; the calls return as soon as as many calls of `read` as there are
bytes do not fail. -/
theorem readvrecs_deliver (records : List (List UInt8)) (rest mem : List UInt8) (len n : ℕ)
    (io : Io) (hrecords : ∀ record ∈ records, record.length < 2^32) (hpos : 1 ≤ len)
    (hlen : len < 2^31) (hn : n ≤ records.length) (heintr : OnlyEintr io)
    (hstream : io.stream = records.flatMap encode ++ rest) :
    (∀ rs, readvrecs len n io mem = some rs → rs.length = n ∧
      ∀ (k : ℕ) (record : List UInt8) (r : Result), records[k]? = some record → rs[k]? = some r →
        Delivered len record r ∧ r.io.stream = (records.drop (k+1)).flatMap encode ++ rest) ∧
    ((records.flatMap encode).length ≤ io.gives → (readvrecs len n io mem).isSome) := by
  induction n generalizing records io mem with
  | zero =>
    refine ⟨fun rs hrs => ?_, fun _ => rfl⟩
    obtain rfl := Option.some.inj hrs
    refine ⟨rfl, fun k record r _ hr => ?_⟩
    cases hr
  | succ n ih =>
    obtain _ | ⟨record, records⟩ := records
    · exact absurd hn (Nat.not_succ_le_zero n)
    have hrecord := hrecords record List.mem_cons_self
    have hrecords' : ∀ x ∈ records, x.length < 2^32 :=
      fun x hx => hrecords x (List.mem_cons_of_mem _ hx)
    rw [List.flatMap_cons, List.append_assoc] at hstream
    constructor
    · intro rs hrs
      refine ⟨calls_length hrs, ?_⟩
      obtain ⟨r, rs', hr, hrs', rfl⟩ := calls_succ.mp hrs
      obtain ⟨hdeliver, hrest, ht⟩ := readvrec_spec heintr hrecord hpos hlen hstream hr
      -- the next call starts at the next record
      obtain ⟨-, hall⟩ := (ih records r.mem r.io hrecords' (Nat.le_of_succ_le_succ hn) ht.eintr
        hrest).1 rs' hrs'
      intro k x q hx hq
      cases k with
      | zero =>
        rw [List.getElem?_cons_zero] at hx hq
        obtain rfl := Option.some.inj hx
        obtain rfl := Option.some.inj hq
        exact ⟨hdeliver, hrest⟩
      | succ k => exact hall k x q hx hq
    · intro hgives
      rw [List.flatMap_cons, List.length_append] at hgives
      obtain ⟨r, hr⟩ := Option.isSome_iff_exists.mp
        (readvrec_isSome mem heintr hrecord hpos hlen hstream (by omega))
      obtain ⟨-, hrest, ht⟩ := readvrec_spec heintr hrecord hpos hlen hstream hr
      have hg := ht.gives
      obtain ⟨rs', hrs'⟩ := Option.isSome_iff_exists.mp
        ((ih records r.mem r.io hrecords' (Nat.le_of_succ_le_succ hn) ht.eintr hrest).2
          (by omega))
      exact Option.isSome_iff_exists.mpr ⟨_, calls_succ.mpr ⟨r, rs', hr, hrs', rfl⟩⟩

/-- Two records with a buffer of two bytes: the first, of three, is refused and skipped. -/
theorem readvrecs_deliver_after_skip :
    let io : Io := ⟨[0, 0, 0, 3, 7, 8, 9, 0, 0, 0, 1, 5],
      [Answer.fail EINTR, Answer.give 2, Answer.give 0, Answer.fail EINTR] ++
        List.replicate 10 (Answer.give 9), 0⟩
    ∃ r₁ r₂, readvrecs 2 2 io [0, 0] = some [r₁, r₂] ∧ r₁.rc = -1 ∧ r₁.io.errno = EMSGSIZE ∧
      r₂.rc = 1 ∧ r₂.mem.take 1 = [5] ∧ r₂.io.stream = [] := by
  intro io
  have heintr : OnlyEintr io := by
    intro e he
    simpa [io] using he
  obtain ⟨hcorrect, hreturn⟩ := readvrecs_deliver [[7, 8, 9], [5]] [] [0, 0] 2 2 io (by decide)
    (by decide) (by decide) (by decide) heintr (by decide)
  obtain ⟨rs, hrs⟩ := Option.isSome_iff_exists.mp (hreturn (by decide))
  obtain ⟨hlength, hall⟩ := hcorrect rs hrs
  obtain ⟨r₁, r₂, rfl⟩ := List.length_eq_two.mp hlength
  obtain ⟨hrc₁, herr⟩ := (hall 0 [7, 8, 9] r₁ rfl rfl).1
  obtain ⟨⟨hrc₂, hmem⟩, hrest⟩ := hall 1 [5] r₂ rfl rfl
  exact ⟨r₁, r₂, hrs, hrc₁, herr, hrc₂, hmem, hrest⟩

end LinuxPrograms.Etcp
