import LinuxPrograms.EtcpTransfer

/-! `readvrec` (etcp.c) on a stream that may end anywhere: when it returns, and what its result says
about the end of the stream. -/
namespace LinuxPrograms.Etcp
open Lib

/-- `readvrec(fd, bp, len)`, with at most `rounds` rounds of the loop that discards a record. -/
def readvrecRounds (rounds : ℕ) (io : Io) (mem : List UInt8) (len : ℕ) : Option Result := do
  let h ← readn io (leBytes 0) 4
  if toSize h.rc ≠ 4 then
    return ⟨shortRc h.rc, mem, h.io⟩
  let reclen := ntohl (leNat h.mem)
  if reclen > len then
    discard rounds h.io mem reclen len
  else
    let r ← readn h.io mem reclen
    if toU32 r.rc ≠ reclen then
      return { r with rc := shortRc r.rc }
    return r

/-- The length a stream's header announces. -/
def announced (stream : List UInt8) : ℕ := beNat (stream.take 4)

/-! Lengths as `int`, and back. -/

theorem toInt_eq {n : ℕ} (h : n < 2^32) : toInt n = if n < 2^31 then (n : ℤ) else n-2^32 := by
  unfold toInt
  rw [Int.bmod_eq_emod]
  split <;> split <;> omega

theorem toSize_toInt {n m : ℕ} (hn : n < 2^32) (hm : m < 2^32) :
    toSize (toInt n) = m ↔ n = m ∧ n < 2^31 := by
  rw [toInt_eq hn, toSize]
  split <;> omega

theorem toU32_toInt {n : ℕ} (hn : n < 2^32) : toU32 (toInt n) = n := by
  rw [toInt_eq hn, toU32]
  split <;> omega

theorem shortRc_toInt {n : ℕ} (hn : n < 2^32) :
    shortRc (toInt n) = if n < 2^31 then 0 else -1 := by
  rw [toInt_eq hn, shortRc]
  split <;> split <;> omega

theorem leNat_lt {l : List UInt8} : leNat l < 2^(8*l.length) := by
  induction l with
  | nil => exact Nat.one_pos
  | cons b l ih =>
    have hb := b.toNat_lt
    have hpow : 2^(8*(b :: l).length) = 2^8*2^(8*l.length) := by
      rw [List.length_cons, Nat.mul_add, Nat.mul_one, Nat.add_comm, Nat.pow_add]
    change b.toNat+2^8*leNat l < _
    rw [hpow]
    omega

theorem ntohl_lt (n : ℕ) : ntohl n < 2^32 := by
  have h := @leNat_lt (leBytes n).reverse
  rwa [List.length_reverse, leBytes_length] at h

/-! One `readn`, with interruptions only. -/

/-- What `readn` does, when the stream holds the bytes and when it ends before. -/
theorem readn_eintr {io : Io} {mem : List UInt8} {len : ℕ} {r : Result} (heintr : OnlyEintr io)
    (h : readn io mem len = some r) :
    (len ≤ io.stream.length ∧ r.rc = toInt len ∧ Took io len r.io ∧
      r.mem = copyTo mem 0 (io.stream.take len)) ∨
    (io.stream.length < len ∧ r.rc = toInt io.stream.length) := by
  by_cases hlong : len ≤ io.stream.length
  · obtain ⟨hrc, hmem, ht⟩ := readnLoop_spec heintr (Nat.zero_le len) (Nat.zero_le _) hlong h
    exact .inl ⟨hlong, hrc, ht, hmem⟩
  · refine .inr ⟨not_le.mp hlong, ?_⟩
    rcases readnLoop_read (Nat.zero_le len) (Nat.zero_le _) h with ⟨hrc, -⟩ | ⟨-, herr, hfail⟩
    · rw [hrc, Nat.sub_zero, Nat.zero_add, Nat.min_eq_right (by omega)]
    · exact absurd (heintr _ hfail) herr

/-- How many calls to come will not be interrupted. -/
def Io.steadies (io : Io) : ℕ := io.answers.countP Answer.steady

/-- It returns when the kernel goes on answering. -/
theorem readn_returns {io : Io} (mem : List UInt8) (len : ℕ)
    (hsteady : io.stream.length < io.steadies) : (readn io mem len).isSome :=
  readnLoop_returns ((Nat.min_le_right _ _).trans (Nat.succ_le_of_lt hsteady))

/-- Each call that is not interrupted takes a byte or is the last, and the last comes while bytes
are missing. -/
theorem readnLoop_steadies {io : Io} {mem : List UInt8} {len totRead : ℕ} {r : Result}
    (h : readnLoop io mem len totRead = some r) :
    io.steadies ≤ r.io.steadies+(len-totRead) := by
  fun_induction readnLoop io mem len totRead with
  | case1 io mem totRead hlt hread => cases h
  | case2 io mem totRead hlt io' hread herr ih =>
    obtain ⟨e, answers, ha, rfl⟩ := read_fail hread
    have hsame : io.steadies = answers.countP Answer.steady := by
      rw [Io.steadies, ha, List.countP_cons_of_neg (not_steady_of_eq herr)]
    rw [hsame]
    exact ih h
  | case3 io mem totRead hlt io' hread herr =>
    obtain ⟨e, answers, ha, rfl⟩ := read_fail hread
    obtain rfl := Option.some.inj h
    have hone : io.steadies ≤ answers.countP Answer.steady+1 := by
      rw [Io.steadies, ha, List.countP_cons]
      split <;> omega
    change _ ≤ answers.countP Answer.steady+_
    omega
  | case4 io mem totRead hlt got io' hread hgot =>
    obtain ⟨n, answers, ha, hl, rfl⟩ := read_give hread
    obtain rfl := Option.some.inj h
    have hone : io.steadies = answers.countP Answer.steady+1 := by
      rw [Io.steadies, ha, List.countP_cons_of_pos rfl]
    change _ ≤ answers.countP Answer.steady+_
    omega
  | case5 io mem totRead hlt got io' hread hgot ih =>
    obtain ⟨n, answers, ha, hl, rfl⟩ := read_give hread
    have hone : io.steadies = answers.countP Answer.steady+1 := by
      rw [Io.steadies, ha, List.countP_cons_of_pos rfl]
    have hrest : answers.countP Answer.steady ≤
        r.io.steadies+(len-(totRead+got.length)) := ih h
    omega
  | case6 io mem totRead hlt =>
    obtain rfl := Option.some.inj h
    exact Nat.le_add_right _ _

/-- A result that is the length says that the bytes were read. -/
theorem readn_full {io : Io} {mem : List UInt8} {len : ℕ} {r : Result} (hlen : len < 2^32)
    (h : readn io mem len = some r) (hfull : toSize r.rc = len) :
    len ≤ io.stream.length ∧ r.mem = copyTo mem 0 (io.stream.take len) ∧
      r.io.stream = io.stream.drop len := by
  rcases readnLoop_read (Nat.zero_le len) (Nat.zero_le _) h with ⟨hrc, hmem, hrest⟩ | ⟨hrc, -⟩
  · rw [Nat.sub_zero, Nat.zero_add] at hrc
    rw [hrc, toSize_toInt (by omega) (by omega)] at hfull
    exact ⟨by omega, hmem, hrest⟩
  · rw [hrc] at hfull
    have hminus : toSize (-1) = 2^64-1 := rfl
    omega

theorem header_announced {stream mem : List UInt8} (hlong : 4 ≤ stream.length)
    (hmem : mem = copyTo (leBytes 0) 0 (stream.take 4)) :
    ntohl (leNat mem) = announced stream := by
  have hfour : (stream.take 4).length = 4 := by
    rw [List.length_take, Nat.min_eq_left hlong]
  have hbytes : mem = stream.take 4 := by
    have hdrop : (leBytes 0).drop (stream.take 4).length = [] := by
      rw [hfour]
      rfl
    rw [hmem, copyTo, List.take_zero, List.nil_append, Nat.zero_add, hdrop, List.append_nil]
  rw [hbytes, ntohl_leNat hfour, announced]

/-- The header, when the stream holds it. -/
theorem readn_header_eintr {io : Io} {h : Result} (heintr : OnlyEintr io)
    (hread : readn io (leBytes 0) 4 = some h) :
    (4 ≤ io.stream.length ∧ toSize h.rc = 4 ∧ ntohl (leNat h.mem) = announced io.stream ∧
      Took io 4 h.io) ∨
    (io.stream.length < 4 ∧ toSize h.rc ≠ 4 ∧ shortRc h.rc = 0) := by
  rcases readn_eintr heintr hread with ⟨hlong, hrc, ht, hmem⟩ | ⟨hshort, hrc⟩
  · exact .inl ⟨hlong, by rw [hrc]; rfl, header_announced hlong hmem, ht⟩
  · refine .inr ⟨hshort, ?_, ?_⟩
    · rw [hrc, Ne, toSize_toInt (by omega) (by decide)]
      omega
    · rw [hrc, shortRc_toInt (by omega), if_pos (by omega)]

/-! The loop that discards a record. -/

section Discard

variable {rounds reclen len : ℕ} {io : Io} {mem : List UInt8} {r : Result}

theorem discard_done : discard rounds io mem 0 len =
    some ⟨-1, mem, { io with errno := EMSGSIZE }⟩ := by
  unfold discard
  rw [if_neg (lt_irrefl 0)]

theorem discard_no_rounds (hrec : 0 < reclen) : discard 0 io mem reclen len = none := by
  unfold discard
  rw [if_pos hrec]

/-- The length of the next piece. -/
def nextLen (reclen len : ℕ) : ℕ := if reclen < len then reclen else len

theorem discard_succ (hrec : 0 < reclen) (hle : len ≤ reclen) (hlt : reclen < 2^32) :
    discard (rounds+1) io mem reclen len = (readn io mem len).bind fun r =>
      if toSize r.rc ≠ len then some { r with rc := shortRc r.rc }
      else discard rounds r.io r.mem (reclen-len) (nextLen (reclen-len) len) := by
  conv_lhs => unfold discard
  rw [if_pos hrec]
  simp only [discard_lengths hle hlt, nextLen]
  rfl

/-- The next round starts with lengths that fit again. -/
theorem nextLen_fits (reclen : ℕ) (hpos : 0 < len) :
    nextLen (reclen-len) len ≤ reclen-len ∧ nextLen (reclen-len) len ≤ len ∧
      (0 < reclen-len → 0 < nextLen (reclen-len) len) := by
  unfold nextLen
  split <;> omega

/-- With an empty buffer nothing is ever discarded. -/
theorem discard_empty (hrec : 0 < reclen) (hlt : reclen < 2^32) :
    discard rounds io mem reclen 0 = none := by
  induction rounds with
  | zero => exact discard_no_rounds hrec
  | succ rounds ih =>
    have hread : readn io mem 0 = some ⟨0, mem, io⟩ := by
      rw [readn, readnLoop, if_neg (lt_irrefl 0)]
      rfl
    have hnext : nextLen (reclen-0) 0 = 0 := if_neg (Nat.not_lt_zero _)
    rw [discard_succ hrec (Nat.zero_le _) hlt, hread, Option.bind_some, hnext]
    exact (if_neg (not_not.mpr rfl)).trans ih

/-- More rounds than are needed change nothing. -/
theorem discard_mono {rounds' : ℕ} (h : discard rounds io mem reclen len = some r)
    (hle : len ≤ reclen) (hlt : reclen < 2^32) (hpos : 0 < reclen → 0 < len)
    (hrounds : reclen ≤ rounds') : discard rounds' io mem reclen len = some r := by
  induction rounds generalizing io mem reclen len rounds' with
  | zero =>
    obtain rfl | hrec := Nat.eq_zero_or_pos reclen
    · rwa [discard_done] at h ⊢
    · rw [discard_no_rounds hrec] at h
      cases h
  | succ rounds ih =>
    obtain rfl | hrec := Nat.eq_zero_or_pos reclen
    · rwa [discard_done] at h ⊢
    obtain ⟨n, rfl⟩ : ∃ n, rounds' = n+1 := ⟨rounds'-1, by omega⟩
    rw [discard_succ hrec hle hlt] at h ⊢
    obtain ⟨q, hq, h⟩ := Option.bind_eq_some_iff.mp h
    rw [hq, Option.bind_some]
    by_cases hsize : toSize q.rc ≠ len
    · rwa [if_pos hsize] at h ⊢
    · rw [if_neg hsize] at h ⊢
      have hlen := hpos hrec
      obtain ⟨hnext, -, hnextpos⟩ := nextLen_fits reclen hlen
      exact ih h hnext (by omega) hnextpos (by omega)

/-- With room for a byte the loop ends. -/
theorem discard_returns (hrounds : reclen ≤ rounds) (hle : len ≤ reclen) (hlt : reclen < 2^32)
    (hpos : 0 < reclen → 0 < len) (hsteady : io.stream.length < io.steadies) :
    (discard rounds io mem reclen len).isSome := by
  induction rounds generalizing io mem reclen len with
  | zero =>
    have hzero : reclen = 0 := by omega
    rw [hzero, discard_done]
    rfl
  | succ rounds ih =>
    obtain rfl | hrec := Nat.eq_zero_or_pos reclen
    · rw [discard_done]
      rfl
    have hlen := hpos hrec
    obtain ⟨q, hq⟩ := Option.isSome_iff_exists.mp (readn_returns mem len hsteady)
    rw [discard_succ hrec hle hlt, hq, Option.bind_some]
    by_cases hsize : toSize q.rc = len
    · -- the piece was read whole
      rw [if_neg (not_not.mpr hsize)]
      obtain ⟨hnext, -, hnextpos⟩ := nextLen_fits reclen hlen
      obtain ⟨hlong, -, hrest⟩ := readn_full (by omega) hq hsize
      have hused : io.steadies ≤ q.io.steadies+(len-0) := readnLoop_steadies hq
      apply ih (by omega) hnext (by omega) hnextpos
      rw [hrest, List.length_drop]
      omega
    · rw [if_pos hsize]
      rfl

/-- The result says whether the stream held the record, if the buffer's length is an `int`. -/
theorem discard_zero_iff (heintr : OnlyEintr io) (hle : len ≤ reclen) (hlt : reclen < 2^32)
    (hpos : 0 < reclen → 0 < len) (hint : len < 2^31)
    (h : discard rounds io mem reclen len = some r) :
    r.rc = 0 ↔ io.stream.length < reclen := by
  induction rounds generalizing io mem reclen len with
  | zero =>
    obtain rfl | hrec := Nat.eq_zero_or_pos reclen
    · rw [discard_done] at h
      obtain rfl := Option.some.inj h
      exact iff_of_false (show (-1 : ℤ) ≠ 0 by decide) (Nat.not_lt_zero _)
    · rw [discard_no_rounds hrec] at h
      cases h
  | succ rounds ih =>
    obtain rfl | hrec := Nat.eq_zero_or_pos reclen
    · rw [discard_done] at h
      obtain rfl := Option.some.inj h
      exact iff_of_false (show (-1 : ℤ) ≠ 0 by decide) (Nat.not_lt_zero _)
    have hlen := hpos hrec
    rw [discard_succ hrec hle hlt] at h
    obtain ⟨q, hq, h⟩ := Option.bind_eq_some_iff.mp h
    rcases readn_eintr heintr hq with ⟨hlong, hrc, ht, -⟩ | ⟨hshort, hrc⟩
    · have hsize : toSize q.rc = len := by
        rw [hrc, toSize_toInt (by omega) (by omega)]
        exact ⟨rfl, hint⟩
      rw [if_neg (not_not.mpr hsize)] at h
      obtain ⟨hnext, hnextle, hnextpos⟩ := nextLen_fits reclen hlen
      rw [ih ht.eintr hnext (by omega) hnextpos (by omega) h, ht.length]
      omega
    · have hsize : toSize q.rc ≠ len := by
        rw [hrc, Ne, toSize_toInt (by omega) (by omega)]
        omega
      rw [if_pos hsize] at h
      obtain rfl := Option.some.inj h
      refine iff_of_true ?_ (by omega)
      change shortRc q.rc = 0
      rw [hrc, shortRc_toInt (by omega), if_pos (by omega)]

/-- A piece whose length is no `int` is the last. -/
theorem discard_zero_iff_of_long (heintr : OnlyEintr io) (hle : len ≤ reclen)
    (hlt : reclen < 2^32) (hint : 2^31 ≤ len)
    (h : discard rounds io mem reclen len = some r) :
    r.rc = 0 ↔ io.stream.length < 2^31 := by
  have hrec : 0 < reclen := by omega
  obtain _ | rounds := rounds
  · rw [discard_no_rounds hrec] at h
    cases h
  rw [discard_succ hrec hle hlt] at h
  obtain ⟨q, hq, h⟩ := Option.bind_eq_some_iff.mp h
  rcases readn_eintr heintr hq with ⟨hlong, hrc, -⟩ | ⟨hshort, hrc⟩
  · have hsize : toSize q.rc ≠ len := by
      rw [hrc, Ne, toSize_toInt (by omega) (by omega)]
      omega
    rw [if_pos hsize] at h
    obtain rfl := Option.some.inj h
    refine iff_of_false ?_ (by omega)
    change shortRc q.rc ≠ 0
    rw [hrc, shortRc_toInt (by omega), if_neg (by omega)]
    decide
  · have hsize : toSize q.rc ≠ len := by
      rw [hrc, Ne, toSize_toInt (by omega) (by omega)]
      omega
    rw [if_pos hsize] at h
    obtain rfl := Option.some.inj h
    change shortRc q.rc = 0 ↔ _
    rw [hrc, shortRc_toInt (by omega)]
    split
    · next hsmall => exact iff_of_true rfl hsmall
    · next hbig => exact iff_of_false (by decide) hbig

end Discard

/-! `readvrec`. -/

section Readvrec

variable {rounds len : ℕ} {io : Io} {mem : List UInt8} {q r : Result}

theorem readvrecRounds_eq (hq : readn io (leBytes 0) 4 = some q) :
    readvrecRounds rounds io mem len =
      if toSize q.rc ≠ 4 then some ⟨shortRc q.rc, mem, q.io⟩
      else if ntohl (leNat q.mem) > len then
        discard rounds q.io mem (ntohl (leNat q.mem)) len
      else (readn q.io mem (ntohl (leNat q.mem))).bind fun r =>
        if toU32 r.rc ≠ ntohl (leNat q.mem) then some { r with rc := shortRc r.rc }
        else some r := by
  unfold readvrecRounds
  rw [hq]
  rfl

theorem readvrec_eq (hq : readn io (leBytes 0) 4 = some q) :
    readvrec io mem len = readvrecRounds (ntohl (leNat q.mem)) io mem len := by
  rw [readvrecRounds_eq hq]
  unfold readvrec
  rw [hq]
  rfl

/-- As many rounds as the record has bytes are enough, if any number is. -/
theorem readvrec_iff :
    readvrec io mem len = some r ↔ ∃ rounds, readvrecRounds rounds io mem len = some r := by
  cases hq : readn io (leBytes 0) 4 with
  | none =>
    constructor
    · intro h
      rw [readvrec, hq] at h
      cases h
    · rintro ⟨rounds, h⟩
      rw [readvrecRounds, hq] at h
      cases h
  | some q =>
    rw [readvrec_eq hq]
    refine ⟨fun h => ⟨_, h⟩, ?_⟩
    rintro ⟨rounds, h⟩
    rw [readvrecRounds_eq hq] at h ⊢
    split
    · next hshort => rwa [if_pos hshort] at h
    · next hfull =>
      rw [if_neg hfull] at h
      split
      · next hbig =>
        rw [if_pos hbig] at h
        obtain rfl | hpos := Nat.eq_zero_or_pos len
        · rw [discard_empty hbig (ntohl_lt _)] at h
          cases h
        · exact discard_mono h hbig.le (ntohl_lt _) (fun _ => hpos) le_rfl
      · next hfits => rwa [if_neg hfits] at h

/-- There is room for a byte, or no header, or no byte announced. -/
def HasRoom (len : ℕ) (stream : List UInt8) : Prop :=
  4 ≤ stream.length → announced stream ≠ 0 → 0 < len

theorem readvrecRounds_isSome (hroom : HasRoom len io.stream)
    (hsteady : io.stream.length < io.steadies) (hrounds : 2^32 ≤ rounds) :
    (readvrecRounds rounds io mem len).isSome := by
  obtain ⟨q, hq⟩ := Option.isSome_iff_exists.mp (readn_returns (leBytes 0) 4 hsteady)
  rw [readvrecRounds_eq hq]
  by_cases hsize : toSize q.rc = 4
  · have hlt := ntohl_lt (leNat q.mem)
    obtain ⟨hlong, hmem, hrest⟩ := readn_full (by decide) hq hsize
    have hused : io.steadies ≤ q.io.steadies+(4-0) := readnLoop_steadies hq
    have hsteady' : q.io.stream.length < q.io.steadies := by
      rw [hrest, List.length_drop]
      omega
    rw [if_neg (not_not.mpr hsize)]
    split
    · next hbig =>
      have hne : announced io.stream ≠ 0 := by
        rw [← header_announced hlong hmem]
        omega
      exact discard_returns (by omega) hbig.le hlt (fun _ => hroom hlong hne) hsteady'
    · obtain ⟨p, hp⟩ := Option.isSome_iff_exists.mp (readn_returns mem _ hsteady')
      rw [hp, Option.bind_some]
      split <;> rfl
  · rw [if_pos hsize]
    rfl

/-- It does not return from a record it has no room for at all. -/
theorem readvrecRounds_eq_none (heintr : OnlyEintr io) (hlong : 4 ≤ io.stream.length)
    (hne : announced io.stream ≠ 0) : readvrecRounds rounds io mem 0 = none := by
  cases hq : readn io (leBytes 0) 4 with
  | none =>
    rw [readvrecRounds, hq]
    rfl
  | some q =>
    rw [readvrecRounds_eq hq]
    rcases readn_header_eintr heintr hq with ⟨-, hsize, hreclen, -⟩ | ⟨hshort, -⟩
    · have hpos : 0 < ntohl (leNat q.mem) := by
        rw [hreclen]
        exact Nat.pos_of_ne_zero hne
      rw [if_neg (not_not.mpr hsize), if_pos hpos]
      exact discard_empty hpos (ntohl_lt _)
    · omega

/-- The stream ends before the header, or before as many bytes as it announces. -/
def EndsEarly (stream : List UInt8) : Prop :=
  stream.length < 4 ∨ stream.length < 4+announced stream

/-- The record is not empty, and where the stream ends within it, the buffer's length or the number
of its bytes that there are is an `int`. -/
def TellsApart (len : ℕ) (stream : List UInt8) : Prop :=
  4 ≤ stream.length → announced stream ≠ 0 ∧
    (stream.length < 4+announced stream → len < 2^31 ∨ stream.length < 4+2^31)

/-- The result 0 means that the stream ended, exactly when `TellsApart`. -/
theorem readvrec_zero_iff (heintr : OnlyEintr io) (hpos : 1 ≤ len)
    (h : readvrec io mem len = some r) :
    (r.rc = 0 ↔ EndsEarly io.stream) ↔ TellsApart len io.stream := by
  cases hq : readn io (leBytes 0) 4 with
  | none =>
    rw [readvrec, hq] at h
    cases h
  | some q =>
    rw [readvrec_eq hq, readvrecRounds_eq hq] at h
    rcases readn_header_eintr heintr hq with ⟨hlong, hsize, hreclen, ht⟩ | ⟨hshort, hsize, hrc⟩
    · have hlt := ntohl_lt (leNat q.mem)
      have hlength := ht.length
      rw [if_neg (not_not.mpr hsize)] at h
      rw [hreclen] at h hlt
      unfold EndsEarly TellsApart
      split at h
      · -- the record is discarded
        next hbig =>
        by_cases hint : len < 2^31
        · rw [discard_zero_iff ht.eintr hbig.le hlt (fun _ => hpos) hint h]
          omega
        · rw [discard_zero_iff_of_long ht.eintr hbig.le hlt (by omega) h]
          omega
      · next hfits =>
        obtain ⟨p, hp, h⟩ := Option.bind_eq_some_iff.mp h
        rcases readn_eintr ht.eintr hp with ⟨hall, hrc, -⟩ | ⟨hcut, hrc⟩
        · -- the record is there
          have hu : toU32 p.rc = announced io.stream := by rw [hrc, toU32_toInt hlt]
          rw [if_neg (not_not.mpr hu)] at h
          obtain rfl := Option.some.inj h
          rw [hrc, toInt_eq hlt]
          split <;> omega
        · have hu : toU32 p.rc ≠ announced io.stream := by
            rw [hrc, toU32_toInt (by omega)]
            omega
          rw [if_pos hu] at h
          obtain rfl := Option.some.inj h
          have hzero : shortRc p.rc = 0 ↔ q.io.stream.length < 2^31 := by
            rw [hrc, shortRc_toInt (by omega)]
            split <;> omega
          change (shortRc p.rc = 0 ↔ _) ↔ _
          rw [hzero]
          omega
    · rw [if_pos hsize] at h
      obtain rfl := Option.some.inj h
      unfold EndsEarly TellsApart
      exact iff_of_true (iff_of_true hrc (.inl hshort)) fun hlong => by omega

end Readvrec

/-! When it returns. -/

/-- With room for a byte of the record, `readvrec` returns, whatever the kernel answers; and when
the kernel does nothing but interrupt and hand out bytes, it returns only then. -/
theorem readvrec_returns_iff {kernel : ℕ → Answer} {k : ℕ}
    (hkernel : ∀ i, k ≤ i → kernel i ≠ .fail EINTR) (stream mem : List UInt8) (errno len : ℕ) :
    (HasRoom len stream →
      ∃ n rounds, (readvrecRounds rounds ⟨stream, view kernel n, errno⟩ mem len).isSome) ∧
    ((∀ i e, kernel i = .fail e → e = EINTR) →
      ((∃ n rounds, (readvrecRounds rounds ⟨stream, view kernel n, errno⟩ mem len).isSome) ↔
        HasRoom len stream)) := by
  have hreturns (hroom : HasRoom len stream) :
      ∃ n rounds, (readvrecRounds rounds ⟨stream, view kernel n, errno⟩ mem len).isSome := by
    obtain ⟨n, hn⟩ := exists_le_countP_view (fun i hi => steady_of_ne (hkernel i hi))
      (stream.length+1)
    exact ⟨n, 2^32, readvrecRounds_isSome hroom hn le_rfl⟩
  refine ⟨hreturns, fun honly => ⟨?_, hreturns⟩⟩
  rintro ⟨n, rounds, h⟩ hlong hne
  apply Nat.pos_of_ne_zero
  rintro rfl
  have heintr : OnlyEintr ⟨stream, view kernel n, errno⟩ := by
    intro e he
    obtain ⟨i, -, hi⟩ := mem_view.mp he
    exact honly i e hi
  rw [readvrecRounds_eq_none heintr hlong hne] at h
  cases h

/-- A record of one byte, and room for it. -/
theorem readvrec_returns_iff_one :
    ∃ n rounds, (readvrecRounds rounds
      ⟨[0, 0, 0, 1, 7], view (fun i => if i = 0 then .fail EINTR else .give 3) n, 0⟩
      [0] 1).isSome := by
  have hkernel : ∀ i, 1 ≤ i → (if i = 0 then Answer.fail EINTR else .give 3) ≠ .fail EINTR := by
    intro i hi
    rw [if_neg (by omega)]
    exact Answer.noConfusion
  apply (readvrec_returns_iff hkernel [0, 0, 0, 1, 7] [0] 0 1).1
  exact fun _ _ => Nat.one_pos

/-- With an empty buffer a record of one byte is read on and on, without a byte being taken. -/
theorem readvrec_empty_buffer :
    ¬ ∃ n rounds, (readvrecRounds rounds ⟨[0, 0, 0, 1, 7], view (fun _ => .give 3) n, 0⟩
      [] 0).isSome := by
  rintro ⟨n, rounds, h⟩
  have heintr : OnlyEintr ⟨[0, 0, 0, 1, 7], view (fun _ => .give 3) n, 0⟩ := by
    intro e he
    obtain ⟨i, -, hi⟩ := mem_view.mp he
    cases hi
  have hlong : 4 ≤ [0, 0, 0, 1, (7 : UInt8)].length := by decide
  have hne : announced [0, 0, 0, 1, 7] ≠ 0 := by decide
  rw [readvrecRounds_eq_none heintr hlong hne] at h
  cases h

/-! A caller that reads until 0. -/

/-- The record has a byte, and it fits the buffer or the buffer's length is an `int`. -/
def Passes (len : ℕ) (record : List UInt8) : Prop :=
  record ≠ [] ∧ (record.length ≤ len ∨ len < 2^31)

/-- A piece whose length is no `int` is the last that is taken. -/
theorem discard_of_long {rounds reclen len : ℕ} {io : Io} {mem : List UInt8} {r : Result}
    (heintr : OnlyEintr io) (hle : len ≤ reclen) (hlt : reclen < 2^32) (hint : 2^31 ≤ len)
    (hlong : len ≤ io.stream.length) (h : discard rounds io mem reclen len = some r) :
    r.io.stream = io.stream.drop len := by
  have hrec : 0 < reclen := by omega
  obtain _ | rounds := rounds
  · rw [discard_no_rounds hrec] at h
    cases h
  rw [discard_succ hrec hle hlt] at h
  obtain ⟨q, hq, h⟩ := Option.bind_eq_some_iff.mp h
  rcases readn_eintr heintr hq with ⟨-, hrc, ht, -⟩ | ⟨hshort, -⟩
  · have hsize : toSize q.rc ≠ len := by
      rw [hrc, Ne, toSize_toInt (by omega) (by omega)]
      omega
    rw [if_pos hsize] at h
    obtain rfl := Option.some.inj h
    exact ht.stream
  · omega

/-- One call at the start of `record`. -/
theorem readvrec_next {io : Io} {mem record rest : List UInt8} {len : ℕ} {r : Result}
    (heintr : OnlyEintr io) (hrecord : record.length < 2^32) (hpos : 1 ≤ len)
    (hstream : io.stream = encode record ++ rest) (h : readvrec io mem len = some r) :
    ((r.rc ≠ 0 ∧ r.io.stream = rest) ↔ Passes len record) ∧
      (Passes len record → OnlyEintr r.io) := by
  obtain ⟨q, hq, h⟩ := Option.bind_eq_some_iff.mp h
  obtain ⟨hsize, hreclen, hrest, hhead⟩ := readn_header heintr hrecord hstream hq
  have henough : record.length ≤ q.io.stream.length := by
    rw [hrest, List.length_append]
    omega
  rw [if_neg (not_not.mpr hsize), hreclen] at h
  by_cases hbig : record.length > len
  · rw [if_pos hbig] at h
    by_cases hint : len < 2^31
    · obtain ⟨hrc, -, ht⟩ := discard_spec hhead.eintr le_rfl hbig.le (fun _ => hpos) hrecord hint
        henough h
      have hne : record ≠ [] := List.ne_nil_of_length_pos (by omega)
      refine ⟨iff_of_true ⟨?_, ?_⟩ ⟨hne, .inr hint⟩, fun _ => ht.eintr⟩
      · rw [hrc]
        decide
      · rw [ht.stream, hrest, List.drop_left]
    · -- the rest of the record stays in the stream
      have hnot : ¬ Passes len record := fun hpass => by
        have hfits := hpass.2
        omega
      refine ⟨iff_of_false ?_ hnot, fun hpass => absurd hpass hnot⟩
      rintro ⟨-, hend⟩
      have hdrop := discard_of_long hhead.eintr hbig.le hrecord (by omega) (by omega) h
      have hlength := congrArg List.length (hend.symm.trans hdrop)
      rw [List.length_drop, hrest, List.length_append] at hlength
      omega
  · rw [if_neg hbig] at h
    obtain ⟨p, hp, h⟩ := Option.bind_eq_some_iff.mp h
    rcases readn_eintr hhead.eintr hp with ⟨-, hrc, ht, -⟩ | ⟨hshort, -⟩
    · have hu : toU32 p.rc = record.length := by rw [hrc, toU32_toInt hrecord]
      rw [if_neg (not_not.mpr hu)] at h
      obtain rfl := Option.some.inj h
      refine ⟨?_, fun _ => ht.eintr⟩
      have hzero : p.rc ≠ 0 ↔ record ≠ [] := by
        rw [hrc, toInt_eq hrecord, ← List.length_pos_iff]
        split <;> omega
      rw [hzero, ht.stream, hrest, List.drop_left]
      exact ⟨fun hne => ⟨hne.1, .inl (by omega)⟩, fun hpass => ⟨hpass.1, rfl⟩⟩
    · omega

/-- Each record's call does not return 0 and leaves the stream at the next record, and the call
after them returns 0. -/
def ReadsAll : List (List UInt8) → List UInt8 → List Result → Prop
  | [], _, [r] => r.rc = 0
  | _ :: records, rest, r :: rs =>
    (r.rc ≠ 0 ∧ r.io.stream = records.flatMap encode ++ rest) ∧ ReadsAll records rest rs
  | _, _, _ => False

/-- Every record has to pass, for the caller to come to the next. -/
theorem readsAll_iff {records : List (List UInt8)} {rest mem : List UInt8} {len : ℕ} {io : Io}
    {rs : List Result} (hrecords : ∀ record ∈ records, record.length < 2^32) (hpos : 1 ≤ len)
    (heintr : OnlyEintr io) (hstream : io.stream = records.flatMap encode ++ rest)
    (hend : EndsEarly rest) (h : readvrecs len (records.length+1) io mem = some rs) :
    ReadsAll records rest rs ↔
      (∀ record ∈ records, Passes len record) ∧ TellsApart len rest := by
  induction records generalizing io mem rs with
  | nil =>
    obtain ⟨r, rs', hr, hrs', rfl⟩ := calls_succ.mp h
    obtain rfl := Option.some.inj hrs'
    have hzero := readvrec_zero_iff heintr hpos hr
    rw [hstream] at hzero
    change r.rc = 0 ↔ _
    constructor
    · intro hrc
      exact ⟨fun x hx => absurd hx List.not_mem_nil, hzero.mp (iff_of_true hrc hend)⟩
    · rintro ⟨-, htells⟩
      exact (hzero.mpr htells).mpr hend
  | cons record records ih =>
    obtain ⟨r, rs', hr, hrs', rfl⟩ := calls_succ.mp h
    rw [List.flatMap_cons, List.append_assoc] at hstream
    obtain ⟨hnext, hstill⟩ := readvrec_next heintr (hrecords record List.mem_cons_self) hpos
      hstream hr
    rw [List.forall_mem_cons, and_assoc, ← hnext]
    change (_ ∧ _) ∧ _ ↔ _
    refine and_congr_right fun hr' => ?_
    exact ih (fun x hx => hrecords x (List.mem_cons_of_mem _ hx)) (hstill (hnext.mp hr')) hr'.2 hrs'

/-- The result 0 tells the end of the stream from a record exactly when `TellsApart`; the call
returns; and a caller that reads until 0 reads every record exactly when each passes. -/
theorem readvrec_tells_apart {len : ℕ} (hpos : 1 ≤ len) {io : Io} (heintr : OnlyEintr io)
    (mem : List UInt8) :
    (∀ r, readvrec io mem len = some r →
      ((r.rc = 0 ↔ EndsEarly io.stream) ↔ TellsApart len io.stream)) ∧
    (io.stream.length < io.steadies → (readvrec io mem len).isSome) ∧
    (∀ records rest rs, (∀ record ∈ records, record.length < 2^32) →
      io.stream = records.flatMap encode ++ rest → EndsEarly rest →
      readvrecs len (records.length+1) io mem = some rs →
      (ReadsAll records rest rs ↔
        (∀ record ∈ records, Passes len record) ∧ TellsApart len rest)) := by
  refine ⟨fun r hr => readvrec_zero_iff heintr hpos hr, fun hsteady => ?_,
    fun records rest rs hrecords hstream hend h => readsAll_iff hrecords hpos heintr hstream hend h⟩
  have hsome : (readvrecRounds (2^32) io mem len).isSome :=
    readvrecRounds_isSome (fun _ _ => hpos) hsteady le_rfl
  obtain ⟨r, hr⟩ := Option.isSome_iff_exists.mp hsome
  exact Option.isSome_iff_exists.mpr ⟨r, readvrec_iff.mpr ⟨_, hr⟩⟩

/-- Two records, the second too large for the buffer. -/
theorem readvrec_tells_apart_two :
    ∃ rs, readvrecs 1 3 ⟨[0, 0, 0, 1, 7, 0, 0, 0, 2, 8, 9], List.replicate 12 (.give 1), 0⟩ [0] =
      some rs ∧ ReadsAll [[7], [8, 9]] [] rs := by
  let io : Io := ⟨[0, 0, 0, 1, 7, 0, 0, 0, 2, 8, 9], List.replicate 12 (.give 1), 0⟩
  have heintr : OnlyEintr io := by
    intro e he
    simp [io] at he
  obtain ⟨-, -, hall⟩ := readvrec_tells_apart le_rfl heintr [0]
  have hread : (readvrecs 1 3 io [0]).isSome := by decide +kernel
  obtain ⟨rs, hrs⟩ := Option.isSome_iff_exists.mp hread
  refine ⟨rs, hrs, (hall [[7], [8, 9]] [] rs (by decide) rfl (.inl (by decide)) hrs).mpr ⟨?_, ?_⟩⟩
  · intro record hrecord
    refine ⟨?_, .inr (by decide)⟩
    rintro rfl
    simp at hrecord
  · intro hlong
    cases hlong

/-- An empty record reads like the end of the stream. -/
theorem readvrec_empty_record :
    ∃ r, readvrec ⟨[0, 0, 0, 0], [.give 3], 0⟩ [0] 5 = some r ∧
      ¬ (r.rc = 0 ↔ EndsEarly [0, 0, 0, 0]) := by
  let io : Io := ⟨[0, 0, 0, 0], [.give 3], 0⟩
  have heintr : OnlyEintr io := by
    intro e he
    simp [io] at he
  have hread : (readvrec io [0] 5).isSome := by decide +kernel
  obtain ⟨r, hr⟩ := Option.isSome_iff_exists.mp hread
  refine ⟨r, hr, fun hzero => ?_⟩
  have htells : TellsApart 5 io.stream := (readvrec_zero_iff heintr (by decide) hr).mp hzero
  exact (htells (by decide)).1 (by decide)

end LinuxPrograms.Etcp
