import LinuxPrograms.EtcpReads
import LinuxPrograms.LibArrays

/-! `readn` and `writen` (etcp.c) transfer exactly: whatever pieces `read` and `write` move and
however often they are interrupted, the first `len` bytes are moved in order, and what `writen`
wrote is what `readn` reads. -/
namespace LinuxPrograms.Etcp
open Lib

/-- What a call of `write` meets: it fails, or at most `n` bytes fit. -/
inductive WriteAnswer
  | fail (errno : ℕ)
  | take (n : ℕ)

/-- A descriptor that is written to, and the process's `errno`. -/
structure Sink where
  written : List UInt8
  answers : List WriteAnswer
  errno : ℕ

/-- `write(fd, buf, count)`: `none` for -1, else how many bytes were written; no answer is a call
that does not return. -/
def Sink.write (sink : Sink) (buf : List UInt8) (count : ℕ) : Option (Option ℕ × Sink) :=
  match sink.answers with
  | [] => none
  | .fail e :: answers => some (none, { sink with answers := answers, errno := e })
  | .take n :: answers =>
    let numWritten := min n count
    some (some numWritten,
      { sink with written := sink.written ++ buf.take numWritten, answers := answers })

theorem Sink.write_answers_lt {sink sink' : Sink} {buf : List UInt8} {count : ℕ} {n : Option ℕ}
    (h : sink.write buf count = some (n, sink')) : sink'.answers.length < sink.answers.length := by
  unfold Sink.write at h
  split at h
  · cases h
  · next ha => cases h; rw [ha]; exact Nat.lt_succ_self _
  · next ha => cases h; rw [ha]; exact Nat.lt_succ_self _

/-- What `writen` returned, and the descriptor afterwards. -/
structure Wrote where
  rc : ℤ
  sink : Sink

/-- The loop of `writen`; `buf` points to `data + totWritten`. -/
def writenLoop (sink : Sink) (data : List UInt8) (len totWritten : ℕ) : Option Wrote :=
  if totWritten < len then
    match h : sink.write (data.drop totWritten) (len-totWritten) with
    | none => none
    | some (none, sink') =>
      if sink'.errno = EINTR then writenLoop sink' data len totWritten else some ⟨-1, sink'⟩
    | some (some numWritten, sink') =>
      if numWritten = 0 then some ⟨-1, sink'⟩
      else writenLoop sink' data len (totWritten+numWritten)
  else some ⟨toInt totWritten, sink⟩
termination_by sink.answers.length
decreasing_by
  · exact Sink.write_answers_lt h
  · exact Sink.write_answers_lt h

/-- `writen(fd, buf, len)`. -/
def writen (sink : Sink) (data : List UInt8) (len : ℕ) : Option Wrote :=
  writenLoop sink data len 0

/-! `writen`. -/

/-- `EINTR`: the call is made again. -/
def WriteAnswer.interrupts : WriteAnswer → Bool
  | .fail e => e = EINTR
  | .take _ => false

/-- A failure other than `EINTR`, or no byte written. -/
def WriteAnswer.stops : WriteAnswer → Bool
  | .fail e => e ≠ EINTR
  | .take n => n = 0

/-- The three ways a call of `write` goes. -/
theorem write_cases {sink sink' : Sink} {buf : List UInt8} {count : ℕ} {n : Option ℕ}
    (h : sink.write buf count = some (n, sink')) :
    ∃ a answers, sink.answers = a :: answers ∧ sink'.answers = answers ∧
      ((n = none ∧ a = .fail sink'.errno ∧ sink'.written = sink.written) ∨
        ∃ m, a = .take m ∧ n = some (min m count) ∧
          sink'.written = sink.written ++ buf.take (min m count)) := by
  unfold Sink.write at h
  split at h
  · cases h
  · next e answers ha =>
    cases h
    exact ⟨.fail e, answers, ha, rfl, .inl ⟨rfl, rfl, rfl⟩⟩
  · next m answers ha =>
    cases h
    exact ⟨.take m, answers, ha, rfl, .inr ⟨m, rfl, rfl, rfl⟩⟩

/-- From the byte `totWritten` on: all of it was written, or a part. -/
def Written (data : List UInt8) (len totWritten : ℕ) (sink : Sink) (w : Wrote) : Prop :=
  (w.rc = toInt len ∧
    w.sink.written = sink.written ++ (data.drop totWritten).take (len-totWritten)) ∨
  (w.rc = -1 ∧ (∃ a ∈ sink.answers, a.stops) ∧
    ∃ k < len-totWritten, w.sink.written = sink.written ++ (data.drop totWritten).take k)

/-- Some bytes are written, and then the rest. -/
theorem Written.after {data : List UInt8} {len totWritten m : ℕ} {sink sink' : Sink} {w : Wrote}
    (hsub : ∀ a ∈ sink'.answers, a ∈ sink.answers) (hm : m ≤ len-totWritten)
    (hwritten : sink'.written = sink.written ++ (data.drop totWritten).take m)
    (h : Written data len (totWritten+m) sink' w) : Written data len totWritten sink w := by
  have hjoin (k : ℕ) : (data.drop totWritten).take (m+k) =
      (data.drop totWritten).take m ++ (data.drop (totWritten+m)).take k := by
    rw [List.take_add, List.drop_drop]
  rcases h with ⟨hrc, hall⟩ | ⟨hrc, ⟨a, ha, hstops⟩, k, hk, hpart⟩
  · refine .inl ⟨hrc, ?_⟩
    have hsum : len-totWritten = m+(len-(totWritten+m)) := by omega
    rw [hall, hwritten, hsum, hjoin, List.append_assoc]
  · refine .inr ⟨hrc, ⟨a, hsub a ha, hstops⟩, m+k, by omega, ?_⟩
    rw [hpart, hwritten, hjoin, List.append_assoc]

theorem writenLoop_written {sink : Sink} {data : List UInt8} {len totWritten : ℕ} {w : Wrote}
    (htot : totWritten ≤ len) (h : writenLoop sink data len totWritten = some w) :
    Written data len totWritten sink w := by
  fun_induction writenLoop sink data len totWritten with
  | case1 sink totWritten hlt hwrite => cases h
  | case2 sink totWritten hlt sink' hwrite herr ih =>
    -- interrupted: nothing was written
    obtain ⟨a, answers, ha, ha', ⟨-, -, hsame⟩ | ⟨m, -, hn, -⟩⟩ := write_cases hwrite
    · refine Written.after (m := 0) ?_ (Nat.zero_le _) ?_ (ih htot h)
      · rw [ha, ha']
        exact fun x hx => List.mem_cons_of_mem a hx
      · rw [hsame, List.take_zero, List.append_nil]
    · cases hn
  | case3 sink totWritten hlt sink' hwrite herr =>
    obtain ⟨a, answers, ha, -, ⟨-, rfl, hsame⟩ | ⟨m, -, hn, -⟩⟩ := write_cases hwrite
    · obtain rfl := Option.some.inj h
      refine .inr ⟨rfl, ⟨.fail sink'.errno, ?_, decide_eq_true herr⟩, 0, by omega, ?_⟩
      · rw [ha]
        exact List.mem_cons_self
      · rw [hsame, List.take_zero, List.append_nil]
    · cases hn
  | case4 sink totWritten hlt sink' hwrite =>
    obtain ⟨a, answers, ha, -, ⟨hn, -⟩ | ⟨m, rfl, hn, hmore⟩⟩ := write_cases hwrite
    · cases hn
    · have hzero : min m (len-totWritten) = 0 := (Option.some.inj hn).symm
      obtain rfl := Option.some.inj h
      refine .inr ⟨rfl, ⟨.take m, ?_, decide_eq_true (by omega)⟩, 0, by omega, ?_⟩
      · rw [ha]
        exact List.mem_cons_self
      · rw [hmore, hzero]
  | case5 sink totWritten hlt n sink' hwrite hn ih =>
    obtain ⟨a, answers, ha, ha', ⟨hnone, -⟩ | ⟨m, -, hsome, hmore⟩⟩ := write_cases hwrite
    · cases hnone
    · obtain rfl := Option.some.inj hsome
      refine Written.after ?_ (Nat.min_le_right _ _) hmore (ih (by omega) h)
      rw [ha, ha']
      exact fun x hx => List.mem_cons_of_mem a hx
  | case6 sink totWritten hlt =>
    obtain rfl := Option.some.inj h
    have heq : totWritten = len := by omega
    refine .inl ⟨by rw [heq], ?_⟩
    rw [heq, Nat.sub_self, List.take_zero, List.append_nil]

/-- The call is not made again. -/
def WriteAnswer.steady (a : WriteAnswer) : Bool := !a.interrupts

/-- It returns once enough calls of `write` are not interrupted. -/
theorem writenLoop_isSome {sink : Sink} {data : List UInt8} {len totWritten : ℕ}
    (hsteady : len-totWritten ≤ sink.answers.countP WriteAnswer.steady) :
    (writenLoop sink data len totWritten).isSome := by
  fun_induction writenLoop sink data len totWritten with
  | case1 sink totWritten hlt hwrite =>
    have hnil : sink.answers = [] := by
      unfold Sink.write at hwrite
      split at hwrite
      · assumption
      · cases hwrite
      · cases hwrite
    rw [hnil, List.countP_nil] at hsteady
    omega
  | case2 sink totWritten hlt sink' hwrite herr ih =>
    obtain ⟨a, answers, ha, ha', ⟨-, rfl, -⟩ | ⟨m, -, hn, -⟩⟩ := write_cases hwrite
    · have hagain : ¬ (WriteAnswer.fail sink'.errno).steady = true := by
        simp [WriteAnswer.steady, WriteAnswer.interrupts, herr]
      rw [ha, List.countP_cons_of_neg hagain, ← ha'] at hsteady
      exact ih hsteady
    · cases hn
  | case3 => rfl
  | case4 => rfl
  | case5 sink totWritten hlt n sink' hwrite hn ih =>
    obtain ⟨a, answers, ha, ha', ⟨hnone, -⟩ | ⟨m, rfl, -, -⟩⟩ := write_cases hwrite
    · cases hnone
    · have hone : (WriteAnswer.take m).steady = true := rfl
      rw [ha, List.countP_cons_of_pos hone, ← ha'] at hsteady
      exact ih (by omega)
  | case6 => rfl

/-! `readn`, whatever the stream holds. -/

/-- A call of `read` failed, and not because it was interrupted. -/
def ReadFailed (io : Io) (r : Result) : Prop :=
  r.rc = -1 ∧ r.io.errno ≠ EINTR ∧ .fail r.io.errno ∈ io.answers

/-- From the byte `totRead` on: what the stream holds was read, up to `len`, or a call failed. -/
def Read (mem : List UInt8) (len totRead : ℕ) (io : Io) (r : Result) : Prop :=
  (r.rc = toInt (totRead+min (len-totRead) io.stream.length) ∧
    r.mem = copyTo mem totRead (io.stream.take (len-totRead)) ∧
    r.io.stream = io.stream.drop (len-totRead)) ∨ ReadFailed io r

/-- A part of the stream is read, and then the rest. -/
theorem Read.after {mem got : List UInt8} {len totRead : ℕ} {io io' : Io} {r : Result}
    (hsub : ∀ a ∈ io'.answers, a ∈ io.answers) (hgot : got.length ≤ len-totRead)
    (hmem : totRead ≤ mem.length) (hstream : io.stream = got ++ io'.stream)
    (h : Read (copyTo mem totRead got) len (totRead+got.length) io' r) :
    Read mem len totRead io r := by
  rcases h with ⟨hrc, hm, hrest⟩ | ⟨hrc, herr, hfail⟩
  · have hsum : len-totRead = got.length+(len-(totRead+got.length)) := by omega
    refine .inl ⟨?_, ?_, ?_⟩
    · rw [hrc, hstream, List.length_append, hsum, Nat.add_min_add_left, Nat.add_assoc]
    · rw [hm, copyTo_copyTo hmem, hstream, hsum, List.take_length_add_append]
    · rw [hrest, hstream, hsum, List.drop_length_add_append]
  · exact .inr ⟨hrc, herr, hsub _ hfail⟩

theorem copyTo_nil (mem : List UInt8) (off : ℕ) : copyTo mem off [] = mem := by
  rw [copyTo, List.append_nil]
  exact List.take_append_drop off mem

theorem readnLoop_read {io : Io} {mem : List UInt8} {len totRead : ℕ} {r : Result}
    (htot : totRead ≤ len) (hmem : totRead ≤ mem.length)
    (h : readnLoop io mem len totRead = some r) : Read mem len totRead io r := by
  fun_induction readnLoop io mem len totRead with
  | case1 io mem totRead hlt hread => cases h
  | case2 io mem totRead hlt io' hread herr ih =>
    -- interrupted: nothing was read
    obtain ⟨e, answers, ha, rfl⟩ := read_fail hread
    rcases ih htot hmem h with hall | ⟨hrc, hother, hfail⟩
    · exact .inl hall
    · refine .inr ⟨hrc, hother, ?_⟩
      rw [ha]
      exact List.mem_cons_of_mem _ hfail
  | case3 io mem totRead hlt io' hread herr =>
    obtain ⟨e, answers, ha, rfl⟩ := read_fail hread
    obtain rfl := Option.some.inj h
    refine .inr ⟨rfl, herr, ?_⟩
    rw [ha]
    exact List.mem_cons_self
  | case4 io mem totRead hlt got io' hread hgot =>
    -- the end of the stream
    obtain ⟨n, answers, ha, hl, rfl⟩ := read_give hread
    obtain rfl := Option.some.inj h
    have hend : io.stream = [] := by
      rw [hl, List.length_take] at hgot
      exact List.length_eq_zero_iff.mp (by omega)
    refine .inl ⟨?_, ?_, ?_⟩
    · rw [hend, List.length_nil, Nat.min_zero, Nat.add_zero]
    · rw [hend, List.take_nil, copyTo_nil]
    · rw [hend, List.drop_nil, List.drop_nil]
  | case5 io mem totRead hlt got io' hread hgot ih =>
    obtain ⟨n, answers, ha, hl, rfl⟩ := read_give hread
    have hlen : got.length = min (min (n+1) (len-totRead)) io.stream.length := by
      rw [hl, List.length_take]
    have hsplit : io.stream = got ++ io.stream.drop got.length := by
      have hgot' : got = io.stream.take got.length := by
        rw [hl]
        exact List.prefix_iff_eq_take.mp (List.take_prefix _ _)
      rw [← List.take_append_drop got.length io.stream, ← hgot', List.drop_left]
    have hmem' : totRead+got.length ≤ (copyTo mem totRead got).length := by
      rw [copyTo, List.length_append, List.length_append, List.length_take]
      omega
    refine Read.after ?_ (by omega) hmem hsplit (ih (by omega) hmem' h)
    rw [ha]
    exact fun a => List.mem_cons_of_mem _
  | case6 io mem totRead hlt =>
    obtain rfl := Option.some.inj h
    have heq : totRead = len := by omega
    refine .inl ⟨?_, ?_, ?_⟩
    · rw [heq, Nat.sub_self, Nat.zero_min, Nat.add_zero]
    · rw [heq, Nat.sub_self, List.take_zero, copyTo_nil]
    · rw [heq, Nat.sub_self, List.drop_zero]

/-- The call is not made again. -/
def Answer.steady : Answer → Bool
  | .fail e => e ≠ EINTR
  | .give _ => true

theorem steady_of_ne {a : Answer} (h : a ≠ .fail EINTR) : a.steady = true := by
  cases a with
  | fail e => simpa [Answer.steady] using h
  | give n => rfl

theorem not_steady_of_eq {e : ℕ} (h : e = EINTR) : ¬ (Answer.fail e).steady = true := by
  simp [Answer.steady, h]

/-- It returns once enough calls of `read` are not interrupted: each takes a byte, or finds the end
of the stream. -/
theorem readnLoop_returns {io : Io} {mem : List UInt8} {len totRead : ℕ}
    (hsteady : min (len-totRead) (io.stream.length+1) ≤ io.answers.countP Answer.steady) :
    (readnLoop io mem len totRead).isSome := by
  fun_induction readnLoop io mem len totRead with
  | case1 io mem totRead hlt hread =>
    rw [read_none hread, List.countP_nil] at hsteady
    omega
  | case2 io mem totRead hlt io' hread herr ih =>
    obtain ⟨e, answers, ha, rfl⟩ := read_fail hread
    rw [ha, List.countP_cons_of_neg (not_steady_of_eq herr)] at hsteady
    exact ih hsteady
  | case3 => rfl
  | case4 => rfl
  | case5 io mem totRead hlt got io' hread hgot ih =>
    obtain ⟨n, answers, ha, hl, rfl⟩ := read_give hread
    have hone : (Answer.give n).steady = true := rfl
    have hle : got.length ≤ io.stream.length := by
      rw [hl, List.length_take]
      omega
    rw [ha, List.countP_cons_of_pos hone] at hsteady
    apply ih
    change min (len-(totRead+got.length)) ((io.stream.drop got.length).length+1) ≤
      answers.countP Answer.steady
    rw [List.length_drop]
    omega
  | case6 => rfl

section Exact

variable {len : ℕ} (hlen : len < 2^31)
include hlen

/-- `writen` writes all of the data, or a part of it. -/
theorem writen_written {data : List UInt8} (hdata : data.length = len) {sink : Sink} {w : Wrote}
    (h : writen sink data len = some w) :
    (w.rc = len ∧ w.sink.written = sink.written ++ data) ∨
    (w.rc = -1 ∧ (∃ a ∈ sink.answers, a.stops) ∧
      ∃ k < len, w.sink.written = sink.written ++ data.take k) := by
  have hw := writenLoop_written (Nat.zero_le len) h
  rwa [Written, toInt_of_lt hlen, List.drop_zero, Nat.sub_zero,
    List.take_of_length_le hdata.le] at hw

/-- `readn` reads what the stream holds, up to `len` bytes. -/
theorem readn_read {io : Io} {mem : List UInt8} {r : Result} (h : readn io mem len = some r) :
    (r.rc = (min len io.stream.length : ℕ) ∧ r.mem = copyTo mem 0 (io.stream.take len) ∧
      r.io.stream = io.stream.drop len) ∨ ReadFailed io r := by
  have hr := readnLoop_read (Nat.zero_le len) (Nat.zero_le _) h
  rwa [Read, Nat.sub_zero, Nat.zero_add,
    toInt_of_lt (lt_of_le_of_lt (Nat.min_le_left _ _) hlen)] at hr

/-- The data that `writen` wrote is what `readn` reads. -/
theorem readn_writen {data mem rest : List UInt8} (hdata : data.length = len) {sink : Sink}
    {io : Io} {w : Wrote} {r : Result} (hw : writen sink data len = some w) (hrc : w.rc = len)
    (hstream : io.stream = w.sink.written.drop sink.written.length ++ rest)
    (hr : readn io mem len = some r) :
    (r.rc = len ∧ r.mem.take len = data ∧ r.io.stream = rest) ∨ ReadFailed io r := by
  obtain ⟨-, hall⟩ : w.rc = len ∧ w.sink.written = sink.written ++ data := by
    refine (writen_written hlen hdata hw).resolve_right fun hfail => ?_
    rw [hfail.1] at hrc
    omega
  rw [hall, List.drop_left] at hstream
  refine (readn_read hlen hr).imp_left ?_
  rintro ⟨hcount, hmem, hrest⟩
  have hlong : len ≤ io.stream.length := by
    rw [hstream, List.length_append]
    omega
  rw [hstream, ← hdata, List.take_left] at hmem
  refine ⟨by rw [hcount, Nat.min_eq_left hlong], ?_, ?_⟩
  · rw [hmem, ← hdata, copyTo, List.take_zero, List.nil_append, List.take_left]
  · rw [hrest, hstream, ← hdata, List.drop_left]

end Exact

/-- `writen` writes all of the data in order or fails after a part; `readn` reads what the stream
holds up to `len` bytes and no more, or fails; what one wrote the other reads; and both return once
they are not interrupted any more. -/
theorem transfer_exact {len : ℕ} (hlen : len < 2^31) (data : List UInt8)
    (hdata : data.length = len) :
    (∀ sink w, writen sink data len = some w →
      (w.rc = len ∧ w.sink.written = sink.written ++ data) ∨
      (w.rc = -1 ∧ (∃ a ∈ sink.answers, a.stops) ∧
        ∃ k < len, w.sink.written = sink.written ++ data.take k)) ∧
    (∀ io mem r, readn io mem len = some r →
      (r.rc = (min len io.stream.length : ℕ) ∧ r.mem = copyTo mem 0 (io.stream.take len) ∧
        r.io.stream = io.stream.drop len) ∨ ReadFailed io r) ∧
    (∀ sink w io mem r rest, writen sink data len = some w → w.rc = len →
      io.stream = w.sink.written.drop sink.written.length ++ rest → readn io mem len = some r →
      (r.rc = len ∧ r.mem.take len = data ∧ r.io.stream = rest) ∨ ReadFailed io r) ∧
    (∀ (kernel : ℕ → WriteAnswer) (k : ℕ), (∀ i, k ≤ i → kernel i ≠ .fail EINTR) →
      ∀ written errno, ∃ n, (writen ⟨written, view kernel n, errno⟩ data len).isSome) ∧
    (∀ (kernel : ℕ → Answer) (k : ℕ), (∀ i, k ≤ i → kernel i ≠ .fail EINTR) →
      ∀ stream errno mem, ∃ n, (readn ⟨stream, view kernel n, errno⟩ mem len).isSome) := by
  refine ⟨fun sink w hw => writen_written hlen hdata hw, fun io mem r hr => readn_read hlen hr,
    fun sink w io mem r rest hw hrc hstream hr => readn_writen hlen hdata hw hrc hstream hr, ?_, ?_⟩
  · intro kernel k hkernel written errno
    have hsteady (i : ℕ) (hi : k ≤ i) : (kernel i).steady = true := by
      have hne := hkernel i hi
      cases hk : kernel i with
      | fail e =>
        rw [hk] at hne
        simpa [WriteAnswer.steady, WriteAnswer.interrupts] using hne
      | take n => rfl
    obtain ⟨n, hn⟩ := exists_le_countP_view hsteady len
    exact ⟨n, writenLoop_isSome hn⟩
  · intro kernel k hkernel stream errno mem
    obtain ⟨n, hn⟩ := exists_le_countP_view (fun i hi => steady_of_ne (hkernel i hi)) len
    exact ⟨n, readnLoop_returns ((Nat.min_le_left _ _).trans hn)⟩

/-- Three bytes, written in three pieces and read in two others. -/
theorem transfer_exact_pieces :
    ∃ w r, writen ⟨[9], [.take 1, .fail EINTR, .take 1, .take 7], 0⟩ [1, 2, 3] 3 = some w ∧
      readn ⟨[1, 2, 3, 8], [.give 0, .fail EINTR, .give 5, .give 5], 0⟩ [0, 0, 0] 3 = some r ∧
      w.rc = 3 ∧ w.sink.written = [9, 1, 2, 3] ∧ r.mem.take 3 = [1, 2, 3] ∧
      r.io.stream = [8] := by
  let sink : Sink := ⟨[9], [.take 1, .fail EINTR, .take 1, .take 7], 0⟩
  let io : Io := ⟨[1, 2, 3, 8], [.give 0, .fail EINTR, .give 5, .give 5], 0⟩
  obtain ⟨hwriten, -, hround, -⟩ := transfer_exact (by decide : 3 < 2^31) [1, 2, 3] rfl
  have hwrote : (writen sink [1, 2, 3] 3).isSome := writenLoop_isSome (by decide)
  have hread : (readn io [0, 0, 0] 3).isSome := readnLoop_returns (by decide)
  obtain ⟨w, hw⟩ := Option.isSome_iff_exists.mp hwrote
  obtain ⟨r, hr⟩ := Option.isSome_iff_exists.mp hread
  obtain ⟨hrc, hall⟩ : w.rc = 3 ∧ w.sink.written = [9] ++ [1, 2, 3] := by
    refine (hwriten sink w hw).resolve_right ?_
    rintro ⟨-, hstops, -⟩
    exact absurd hstops (by decide)
  obtain ⟨-, hmem, hrest⟩ : r.rc = 3 ∧ r.mem.take 3 = [1, 2, 3] ∧ r.io.stream = [8] := by
    refine (hround sink w io [0, 0, 0] r [8] hw hrc (by rw [hall]; rfl) hr).resolve_right ?_
    rintro ⟨-, herr, hfail⟩
    simp only [io, List.mem_cons, Answer.fail.injEq, reduceCtorEq, false_or, or_false,
      List.not_mem_nil] at hfail
    exact herr hfail
  exact ⟨w, r, hw, hr, hrc, hall, hmem, hrest⟩

end LinuxPrograms.Etcp
