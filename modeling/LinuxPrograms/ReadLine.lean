import LinuxPrograms.EtcpReadline

/-! `readLine` (read_line.c), which reads byte by byte: it takes a whole line from the descriptor
and stores as much of it as there is room for. -/
namespace LinuxPrograms.ReadLine
open Lib Etcp

def EINVAL : ℕ := 22

/-- A `size_t` as a `ssize_t`. -/
def toSsize (n : ℕ) : ℤ := Int.bmod n (2^64)

/-- The buffer and `totRead`. -/
structure Stored where
  mem : List UInt8
  totRead : ℕ

/-- `if(totRead < n-1) { totRead++; *buf++ = ch; }`. -/
def store (mem : List UInt8) (n totRead : ℕ) (ch : UInt8) : Stored :=
  if totRead < n-1 then ⟨mem.set totRead ch, totRead+1⟩ else ⟨mem, totRead⟩

/-- The loop of `readLine`; `buf` points to `mem + totRead`. -/
def readLineLoop (io : Io) (mem : List UInt8) (n totRead : ℕ) : Option Result :=
  match h : io.read 1 with
  | none => none
  | some (none, io') =>
    if io'.errno = EINTR then readLineLoop io' mem n totRead else some ⟨-1, mem, io'⟩
  | some (some [], io') =>
    if totRead = 0 then some ⟨0, mem, io'⟩ else some ⟨toSsize totRead, mem.set totRead 0, io'⟩
  | some (some (ch :: _), io') =>
    let s := store mem n totRead ch
    if ch = newline then some ⟨toSsize s.totRead, s.mem.set s.totRead 0, io'⟩
    else readLineLoop io' s.mem n s.totRead
termination_by io.answers.length
decreasing_by
  · exact Io.read_answers_lt h
  · exact Io.read_answers_lt h

/-- `readLine(fd, buffer, n)`; `none` is the null pointer. -/
def readLine (n : ℕ) (buffer : Option (List UInt8)) (io : Io) : Option Result :=
  match buffer with
  | none => some ⟨-1, [], { io with errno := EINVAL }⟩
  | some mem =>
    if n = 0 then some ⟨-1, mem, { io with errno := EINVAL }⟩ else readLineLoop io mem n 0

/-- `m` calls, one after the other, with one buffer. -/
def readLines (n m : ℕ) (io : Io) (mem : List UInt8) : Option (List Result) :=
  calls (fun io mem => readLine n (some mem) io) m io mem

/-! One call. -/

/-- `*buf = c`. -/
theorem set_eq_copyTo {mem : List UInt8} {off : ℕ} (h : off < mem.length) (c : UInt8) :
    mem.set off c = copyTo mem off [c] := by
  rw [copyTo, List.set_eq_take_append_cons_drop, if_pos h, List.append_assoc]
  rfl

/-- A byte that is read is the next of the stream. -/
theorem read_byte {io io' : Io} {ch : UInt8} {rest : List UInt8} (heintr : OnlyEintr io)
    (h : io.read 1 = some (some (ch :: rest), io')) :
    io.stream = ch :: io'.stream ∧ OnlyEintr io' ∧ io.gives ≤ io'.gives+1 := by
  obtain ⟨n, answers, ha, hl, rfl⟩ := read_give h
  have hone : min (n+1) 1 = 1 := by omega
  refine ⟨?_, heintr.tail ha, ?_⟩
  · rw [hone] at hl
    cases hs : io.stream with
    | nil =>
      rw [hs] at hl
      cases hl
    | cons c s =>
      rw [hs] at hl
      obtain ⟨rfl, rfl⟩ := List.cons.inj hl
      rfl
  · rw [Io.gives, ha, List.countP_cons_of_pos rfl]
    exact le_rfl

/-- No byte is read at the end of the stream only. -/
theorem read_end {io io' : Io} (heintr : OnlyEintr io) (h : io.read 1 = some (some [], io')) :
    io.stream = [] ∧ io'.stream = [] ∧ OnlyEintr io' ∧ io.gives ≤ io'.gives+1 := by
  obtain ⟨n, answers, ha, hl, rfl⟩ := read_give h
  have hend : io.stream = [] := by
    have hzero := congrArg List.length hl
    rw [List.length_nil, List.length_take] at hzero
    exact List.length_eq_zero_iff.mp (by omega)
  refine ⟨hend, ?_, heintr.tail ha, ?_⟩
  · change io.stream.drop 0 = []
    rw [hend, List.drop_nil]
  · rw [Io.gives, ha, List.countP_cons_of_pos rfl]
    exact le_rfl

/-- A byte is stored, and then the bytes `l` of the line. -/
theorem store_spec {mem : List UInt8} {n totRead : ℕ} (ch : UInt8) (hn : 2 ≤ n)
    (htot : totRead ≤ n-1) (hmem : n ≤ mem.length) (l : List UInt8) :
    (1 ≤ (store mem n totRead ch).totRead ∧ (store mem n totRead ch).totRead ≤ n-1 ∧
      n ≤ (store mem n totRead ch).mem.length) ∧
    min ((store mem n totRead ch).totRead+l.length) (n-1) =
      min (totRead+(ch :: l).length) (n-1) ∧
    copyTo (store mem n totRead ch).mem (store mem n totRead ch).totRead
        (l.take (n-1-(store mem n totRead ch).totRead) ++ [0]) =
      copyTo mem totRead ((ch :: l).take (n-1-totRead) ++ [0]) := by
  rw [List.length_cons]
  unfold store
  split
  · next hroom =>
    dsimp only
    refine ⟨⟨by omega, by omega, hmem.trans (List.length_set).ge⟩, by omega, ?_⟩
    have hleft : n-1-totRead = (n-1-(totRead+1))+1 := by omega
    rw [set_eq_copyTo (by omega), hleft, List.take_succ_cons]
    exact copyTo_copyTo (by omega) [ch] _
  · next hfull =>
    dsimp only
    have hzero : n-1-totRead = 0 := by omega
    refine ⟨⟨by omega, by omega, hmem⟩, by omega, ?_⟩
    rw [hzero, List.take_zero, List.take_zero]

/-- From `totRead` on, the rest of a line is taken, and stored as far as there is room. -/
structure TakesLine (mem : List UInt8) (n totRead : ℕ) (io : Io) (r : Result) : Prop where
  stream : r.io.stream = io.stream.drop (lineOf newline io.stream).length
  eintr : OnlyEintr r.io
  gives : io.gives ≤ r.io.gives+(lineOf newline io.stream).length+1
  rc : r.rc = toSsize (min (totRead+(lineOf newline io.stream).length) (n-1))
  mem : r.mem = if totRead = 0 ∧ io.stream = [] then mem
    else copyTo mem totRead ((lineOf newline io.stream).take (n-1-totRead) ++ [0])

section TakesLine

variable {io : Io} {mem : List UInt8} {n totRead : ℕ} {r : Result}

/-- Nothing of the line is left: a NUL is stored, unless the stream ended before the line. -/
theorem takesLine_end (htot : totRead ≤ n-1) (hs : io.stream = []) (hs' : r.io.stream = [])
    (heintr : OnlyEintr r.io) (hg : io.gives ≤ r.io.gives+1) (hrc : r.rc = toSsize totRead)
    (hstored : r.mem = if totRead = 0 then mem else copyTo mem totRead [0]) :
    TakesLine mem n totRead io r := by
  have hline : lineOf newline io.stream = [] := by rw [hs, lineOf_nil]
  refine ⟨?_, heintr, ?_, ?_, ?_⟩
  · rw [hs, List.drop_nil, hs']
  · rw [hline]
    exact hg
  · rw [hline, List.length_nil, Nat.add_zero, Nat.min_eq_left htot, hrc]
  · rw [hstored, hline, List.take_nil, List.nil_append]
    simp only [hs, and_true]

variable (hn : 2 ≤ n) (htot : totRead ≤ n-1) (hmem : n ≤ mem.length)
include hn htot hmem

/-- The newline ends the line. -/
theorem takesLine_newline {io' : Io} (hs : io.stream = newline :: io'.stream)
    (heintr : OnlyEintr io') (hg : io.gives ≤ io'.gives+1) :
    TakesLine mem n totRead io
      ⟨toSsize (store mem n totRead newline).totRead,
        (store mem n totRead newline).mem.set (store mem n totRead newline).totRead 0, io'⟩ := by
  obtain ⟨⟨-, hle, hmem'⟩, hcount, hstore⟩ := store_spec newline hn htot hmem []
  have hline : lineOf newline io.stream = [newline] := by rw [hs, lineOf_cons_self]
  have hne : io.stream ≠ [] := by
    rw [hs]
    exact List.cons_ne_nil _ _
  refine ⟨?_, heintr, ?_, ?_, ?_⟩
  · rw [hline, hs]
    rfl
  · rw [hline]
    exact hg.trans (Nat.le_succ _)
  · rw [hline, ← hcount, List.length_nil, Nat.add_zero, Nat.min_eq_left hle]
  · rw [if_neg (fun hstart => hne hstart.2), hline, ← hstore, List.take_nil]
    exact set_eq_copyTo (by omega) 0

/-- Another character, and then the rest of the line. -/
theorem takesLine_char {io' : Io} {ch : UInt8} (hch : ch ≠ newline)
    (hs : io.stream = ch :: io'.stream) (hg : io.gives ≤ io'.gives+1)
    (q : TakesLine (store mem n totRead ch).mem n (store mem n totRead ch).totRead io' r) :
    TakesLine mem n totRead io r := by
  obtain ⟨⟨hpos, -, -⟩, hcount, hstore⟩ :=
    store_spec ch hn htot hmem (lineOf newline io'.stream)
  have hline : lineOf newline io.stream = ch :: lineOf newline io'.stream := by
    rw [hs, lineOf_cons_of_ne hch]
  refine ⟨?_, q.eintr, ?_, ?_, ?_⟩
  · rw [q.stream, hline, hs]
    rfl
  · have hg' := q.gives
    rw [hline, List.length_cons]
    omega
  · rw [q.rc, hline, ← hcount]
  · have hne : io.stream ≠ [] := by
      rw [hs]
      exact List.cons_ne_nil _ _
    have hnot : ¬ ((store mem n totRead ch).totRead = 0 ∧ io'.stream = []) := by
      rintro ⟨hzero, -⟩
      omega
    rw [q.mem, if_neg hnot, if_neg (fun hstart => hne hstart.2), hline, ← hstore]

theorem readLineLoop_takesLine (heintr : OnlyEintr io)
    (h : readLineLoop io mem n totRead = some r) : TakesLine mem n totRead io r := by
  fun_induction readLineLoop io mem n totRead with
  | case1 io mem totRead hread => cases h
  | case2 io mem totRead io' hread herr ih =>
    obtain ⟨-, ht⟩ := read_interrupted heintr hread
    have hs : io'.stream = io.stream := ht.stream
    have hg := ht.gives
    have q := ih htot hmem ht.eintr h
    refine ⟨by rw [q.stream, hs], q.eintr, ?_, by rw [q.rc, hs], by rw [q.mem, hs]⟩
    have hg' := q.gives
    rw [hs] at hg'
    omega
  | case3 io mem totRead io' hread herr =>
    exact absurd (read_interrupted heintr hread).1 herr
  | case4 io mem io' hread =>
    -- the end of the stream, at the start of a line
    obtain ⟨hs, hs', heintr', hg⟩ := read_end heintr hread
    obtain rfl := Option.some.inj h
    have hzero : toSsize 0 = 0 := rfl
    exact takesLine_end htot hs hs' heintr' hg hzero.symm (if_pos rfl).symm
  | case5 io mem totRead io' hread hne =>
    -- the end of the stream, in a line
    obtain ⟨hs, hs', heintr', hg⟩ := read_end heintr hread
    obtain rfl := Option.some.inj h
    refine takesLine_end htot hs hs' heintr' hg ?_ ?_
    · dsimp only
    · rw [if_neg hne]
      exact set_eq_copyTo (by omega) 0
  | case6 io mem totRead rest io' hread s =>
    obtain ⟨hs, heintr', hg⟩ := read_byte heintr hread
    obtain rfl := Option.some.inj h
    exact takesLine_newline hn htot hmem hs heintr' hg
  | case7 io mem totRead ch rest io' hread s hch ih =>
    obtain ⟨hs, heintr', hg⟩ := read_byte heintr hread
    obtain ⟨⟨-, hle, hmem'⟩, -, -⟩ := store_spec ch hn htot hmem []
    exact takesLine_char hn htot hmem hch hs hg (ih hle hmem' heintr' h)

end TakesLine

/-- It returns once it has read the line, and a byte more for the end of the stream. -/
theorem readLineLoop_isSome {io : Io} {mem : List UInt8} {n totRead : ℕ} (heintr : OnlyEintr io)
    (hgives : (lineOf newline io.stream).length < io.gives) :
    (readLineLoop io mem n totRead).isSome := by
  fun_induction readLineLoop io mem n totRead with
  | case1 io mem totRead hread =>
    have hnone := read_eq_none hread
    omega
  | case2 io mem totRead io' hread herr ih =>
    obtain ⟨-, ht⟩ := read_interrupted heintr hread
    have hs : io'.stream = io.stream := ht.stream
    have hg := ht.gives
    apply ih ht.eintr
    rw [hs]
    omega
  | case3 => rfl
  | case4 => rfl
  | case5 => rfl
  | case6 => rfl
  | case7 io mem totRead ch rest io' hread s hch ih =>
    obtain ⟨hs, heintr', hg⟩ := read_byte heintr hread
    rw [hs, lineOf_cons_of_ne hch, List.length_cons] at hgives
    exact ih heintr' (by omega)

/-! Line by line. -/

theorem toSsize_of_lt {k : ℕ} (h : k < 2^63) : toSsize k = k := by
  apply Int.bmod_eq_of_le <;> omega

theorem toSsize_ne_zero {k : ℕ} (hpos : 0 < k) (hlt : k < 2^64) : toSsize k ≠ 0 := by
  unfold toSsize
  rw [Int.bmod_eq_emod]
  split <;> omega

/-- A call that takes `line` and leaves `rest`: the first bytes of the line are stored and a NUL,
and nothing beyond `n` bytes. -/
structure ReadsLine (n : ℕ) (mem line rest : List UInt8) (r : Result) : Prop where
  rc : r.rc = toSsize (min line.length (n-1))
  count : n ≤ 2^63 → r.rc = (min line.length (n-1) : ℕ)
  nonzero : r.rc ≠ 0
  stored : r.mem.take (min line.length (n-1)+1) = line.take (n-1) ++ [0]
  beyond : r.mem.drop n = mem.drop n
  stream : r.io.stream = rest

/-- A call at the end of the stream. -/
structure FindsEnd (n : ℕ) (mem : List UInt8) (r : Result) : Prop where
  rc : r.rc = 0
  beyond : r.mem.drop n = mem.drop n
  stream : r.io.stream = []

/-- The k-th call, when `lines` are to come. -/
def Delivers (n : ℕ) (mem : List UInt8) (lines : List (List UInt8)) (k : ℕ) (r : Result) : Prop :=
  match lines[k]? with
  | some line => ReadsLine n mem line (lines.drop (k+1)).flatten r
  | none => FindsEnd n mem r

theorem delivers_succ {n k : ℕ} {mem : List UInt8} {lines : List (List UInt8)} {r : Result} :
    Delivers n mem lines (k+1) r ↔ Delivers n mem lines.tail k r := by
  unfold Delivers
  rw [List.getElem?_tail, List.drop_tail]

section Calls

variable {n : ℕ} (hn : 2 ≤ n) (hsize : n < 2^64)
include hn

theorem readLine_takesLine {io : Io} {mem : List UInt8} {r : Result} (heintr : OnlyEintr io)
    (hmem : n ≤ mem.length) (h : readLine n (some mem) io = some r) : TakesLine mem n 0 io r := by
  dsimp only [readLine] at h
  rw [if_neg (by omega)] at h
  exact readLineLoop_takesLine hn (Nat.zero_le _) hmem heintr h

/-- A call writes to the first `n` bytes of the buffer. -/
theorem TakesLine.buffer {io : Io} {mem : List UInt8} {r : Result} (h : TakesLine mem n 0 io r)
    (hmem : n ≤ mem.length) : r.mem.length = mem.length ∧ r.mem.drop n = mem.drop n := by
  rw [h.mem]
  split
  · exact ⟨rfl, rfl⟩
  · have hle : ((lineOf newline io.stream).take (n-1-0) ++ [0]).length ≤ n := by
      rw [List.length_append, List.length_take, List.length_singleton]
      omega
    refine ⟨copyTo_length _ _ _ (by omega), ?_⟩
    rw [copyTo, List.take_zero, List.nil_append, Nat.zero_add, List.drop_append,
      List.drop_eq_nil_of_le hle, List.nil_append, List.drop_drop, Nat.add_sub_cancel' hle]

/-- The first call takes the first line, if there is one. -/
theorem TakesLine.delivers (hsize : n < 2^64) {io : Io} {mem mem₀ : List UInt8} {r : Result}
    (h : TakesLine mem n 0 io r) (hbeyond : r.mem.drop n = mem₀.drop n) :
    Delivers n mem₀ (linesOf newline io.stream) 0 r := by
  by_cases hs : io.stream = []
  · have hline : lineOf newline io.stream = [] := by rw [hs, lineOf_nil]
    have hend : r.io.stream = [] := by rw [h.stream, hs, List.drop_nil]
    have hrc : r.rc = 0 := by
      rw [h.rc, hline, List.length_nil, Nat.zero_add, Nat.zero_min]
      rfl
    rw [hs]
    exact ⟨hrc, hbeyond, hend⟩
  · have hpos : 0 < (lineOf newline io.stream).length := by
      obtain ⟨c, s, hcons⟩ := List.exists_cons_of_ne_nil hs
      rw [hcons]
      by_cases hc : c = newline
      · rw [hc, lineOf_cons_self]
        exact Nat.one_pos
      · rw [lineOf_cons_of_ne hc]
        exact Nat.succ_pos _
    have hrc := h.rc
    rw [Nat.zero_add] at hrc
    rw [linesOf_eq_cons hs]
    refine ⟨hrc, fun hint => ?_, ?_, ?_, hbeyond, ?_⟩
    · rw [hrc, toSsize_of_lt (by omega)]
    · rw [hrc]
      exact toSsize_ne_zero (by omega) (by omega)
    · have hcount : min (lineOf newline io.stream).length (n-1)+1 =
          0+((lineOf newline io.stream).take (n-1-0) ++ [0]).length := by
        rw [List.length_append, List.length_take, Nat.min_comm, Nat.zero_add]
        rfl
      rw [h.mem, if_neg (fun hend => hs hend.2), hcount, take_copyTo _ _ _ (Nat.zero_le _)]
      rfl
    · rw [h.stream]
      exact linesOf_flatten.symm

/-- The k-th call delivers the k-th line. -/
theorem readLines_delivers (hsize : n < 2^64) {m : ℕ} {io : Io} {mem mem₀ : List UInt8}
    {rs : List Result} (heintr : OnlyEintr io) (hmem : n ≤ mem.length)
    (hsame : mem.drop n = mem₀.drop n) (h : readLines n m io mem = some rs) {k : ℕ} {r : Result}
    (hr : rs[k]? = some r) : Delivers n mem₀ (linesOf newline io.stream) k r := by
  induction m generalizing io mem rs k with
  | zero =>
    obtain rfl := Option.some.inj h
    cases hr
  | succ m ih =>
    obtain ⟨q, rs', hq, hrs', rfl⟩ := calls_succ.mp h
    have hline := readLine_takesLine hn heintr hmem hq
    obtain ⟨hlength, hbeyond⟩ := hline.buffer hn hmem
    cases k with
    | zero =>
      obtain rfl := Option.some.inj hr
      exact hline.delivers hn hsize (hbeyond.trans hsame)
    | succ k =>
      -- the other lines are those of the rest of the stream
      have htail : linesOf newline q.io.stream = (linesOf newline io.stream).tail := by
        rw [hline.stream]
        by_cases hs : io.stream = []
        · rw [hs]
          rfl
        · conv_rhs => rw [linesOf_eq_cons hs]
          rfl
      rw [delivers_succ, ← htail]
      exact ih hline.eintr (hmem.trans hlength.ge) (hbeyond.trans hsame) hrs' hr

/-- The calls return. -/
theorem readLines_isSome {m : ℕ} {io : Io} {mem : List UInt8} (heintr : OnlyEintr io)
    (hmem : n ≤ mem.length) (hgives : io.stream.length+m ≤ io.gives) :
    (readLines n m io mem).isSome := by
  induction m generalizing io mem with
  | zero => rfl
  | succ m ih =>
    have hle : (lineOf newline io.stream).length ≤ io.stream.length := lineOf_length_le
    have hcall : (readLine n (some mem) io).isSome := by
      dsimp only [readLine]
      rw [if_neg (by omega)]
      exact readLineLoop_isSome heintr (by omega)
    obtain ⟨q, hq⟩ := Option.isSome_iff_exists.mp hcall
    have hline := readLine_takesLine hn heintr hmem hq
    have hlength : q.io.stream.length =
        io.stream.length-(lineOf newline io.stream).length := by
      rw [hline.stream, List.length_drop]
    have hg := hline.gives
    obtain ⟨rs', hrs'⟩ := Option.isSome_iff_exists.mp
      (ih hline.eintr (hmem.trans (hline.buffer hn hmem).1.ge) (by omega))
    exact Option.isSome_iff_exists.mpr ⟨_, calls_succ.mpr ⟨q, rs', hq, hrs', rfl⟩⟩

end Calls

/-- The k-th call takes the k-th line and stores its first `n-1` bytes with a NUL; when no line is
left it returns 0, and only then. -/
theorem readLine_walks {n : ℕ} (hn : 2 ≤ n) (hsize : n < 2^64) {io : Io} (heintr : OnlyEintr io)
    {mem : List UInt8} (hmem : n ≤ mem.length) (m : ℕ) :
    (∀ rs, readLines n m io mem = some rs → rs.length = m ∧ ∀ k r, rs[k]? = some r →
      Delivers n mem (linesOf newline io.stream) k r) ∧
    (io.stream.length+m ≤ io.gives → (readLines n m io mem).isSome) ∧
    (linesOf newline io.stream).flatten = io.stream ∧
    ∀ k line, (linesOf newline io.stream)[k]? = some line →
      IsLine newline (linesOf newline io.stream) k line := by
  refine ⟨fun rs hrs => ⟨calls_length hrs, fun k r hr => ?_⟩,
    fun hgives => readLines_isSome hn heintr hmem hgives, linesOf_flatten,
    fun k line hline => linesOf_isLine hline⟩
  exact readLines_delivers hn hsize heintr hmem rfl hrs hr

/-- A line that is too long for the buffer, a line without its newline, and the end. -/
theorem readLine_walks_two :
    ∃ r₁ r₂ r₃, readLines 3 3 ⟨[97, 98, 99, 10, 100],
        [.give 0, .fail EINTR, .give 5] ++ List.replicate 9 (.give 0), 0⟩ [7, 7, 7, 7] =
        some [r₁, r₂, r₃] ∧
      r₁.rc = 2 ∧ r₁.mem.take 3 = [97, 98, 0] ∧ r₁.io.stream = [100] ∧ r₂.rc = 1 ∧
      r₂.mem.take 2 = [100, 0] ∧ r₃.rc = 0 := by
  let io : Io := ⟨[97, 98, 99, 10, 100],
    [.give 0, .fail EINTR, .give 5] ++ List.replicate 9 (.give 0), 0⟩
  have heintr : OnlyEintr io := by
    intro e he
    simpa [io] using he
  obtain ⟨hcorrect, hreturn, -⟩ := readLine_walks (by decide : 2 ≤ 3) (by decide) heintr
    (by decide : 3 ≤ [7, 7, 7, (7 : UInt8)].length) 3
  obtain ⟨rs, hrs⟩ := Option.isSome_iff_exists.mp (hreturn (by decide))
  obtain ⟨hlength, hall⟩ := hcorrect rs hrs
  obtain ⟨r₁, r₂, r₃, rfl⟩ := List.length_eq_three.mp hlength
  have h₁ : ReadsLine 3 _ [97, 98, 99, 10] [100] r₁ := hall 0 r₁ rfl
  have h₂ : ReadsLine 3 _ [100] [] r₂ := hall 1 r₂ rfl
  have h₃ : FindsEnd 3 _ r₃ := hall 2 r₃ rfl
  exact ⟨r₁, r₂, r₃, hrs, h₁.count (by decide), h₁.stored, h₁.stream, h₂.count (by decide),
    h₂.stored, h₃.rc⟩

end LinuxPrograms.ReadLine
