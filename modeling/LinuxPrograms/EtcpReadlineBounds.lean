import LinuxPrograms.EtcpReadline
import LinuxPrograms.EtcpTransfer

/-! The bounds of `readline` (etcp.c): where it stores in the caller's buffer, and from where in its
own buffer it takes the bytes. -/
namespace LinuxPrograms.Etcp
open Lib

/-- What `readline` does to the caller's buffer. -/
inductive Access
  /-- `c = *bp++; *bufptr++ = c;`, when `recv` last delivered `got`. -/
  | copy (got : List UInt8) (bp off : ℕ) (c : UInt8)
  /-- `*bufptr = '\0';` -/
  | nul (off : ℕ)

/-- Where it stores. -/
def Access.off : Access → ℕ
  | .copy _ _ off _ => off
  | .nul off => off

/-- What it stores. -/
def Access.byte : Access → UInt8
  | .copy _ _ _ c => c
  | .nul _ => 0

/-- The byte is one of those that `recv` last delivered, which are in the local buffer. -/
def Access.Delivered : Access → Prop
  | .copy got bp _ c => got.length ≤ 1500 ∧ got[bp]? = some c
  | .nul _ => True

/-- What `recv` last delivered, after `if( --cnt <= 0 )`. -/
def Readline.latest (s : Readline) (io : Io) (got : List UInt8) : List UInt8 :=
  if s.cnt-1 ≤ 0 then
    match io.read 1500 with
    | some (some got', _) => got'
    | _ => []
  else got

/-- The accesses of `readlineLoop`, also when a call of `recv` does not return. -/
def accesses (io : Io) (got : List UInt8) (s : Readline) : List Access :=
  if _hlen : s.len-1 > 0 then
    match _h : Readline.fill { s with len := s.len-1 } io with
    | none => []
    | some (.ret _, _) => []
    | some (.again s', io') => accesses io' (s.latest io got) s'
    | some (.filled s', io') =>
      let copied := .copy (s.latest io got) s'.bp s'.off s'.char
      if s'.char = newline then [copied, .nul s'.store.off]
      else copied :: accesses io' (s.latest io got) s'.store
  else []
termination_by s.len+io.answers.length
decreasing_by
  · exact Readline.fill_again_lt _hlen _h
  · have hlt := Readline.fill_filled_lt _hlen _h
    exact hlt

/-- The variables when `readline` starts. -/
def Readline.start (len : ℕ) (mem : List UInt8) : Readline :=
  ⟨if len = 0 then 2^64 else len, 0, List.replicate 1500 0, 0, 0, mem⟩

/-- The accesses of `readline(fd, bufptr, len)`. -/
def readlineAccesses (len : ℕ) (io : Io) (mem : List UInt8) : List Access :=
  accesses io [] (Readline.start len mem)

theorem accesses_eq {io : Io} {got : List UInt8} {s : Readline} (hlen : s.len-1 > 0) :
    accesses io got s =
      match Readline.fill { s with len := s.len-1 } io with
      | none => []
      | some (.ret _, _) => []
      | some (.again s', io') => accesses io' (s.latest io got) s'
      | some (.filled s', io') =>
        let copied := .copy (s.latest io got) s'.bp s'.off s'.char
        if s'.char = newline then [copied, .nul s'.store.off]
        else copied :: accesses io' (s.latest io got) s'.store := by
  rw [accesses, dif_pos hlen]
  split
  · next h => rw [h]
  · next h => rw [h]
  · next h => rw [h]
  · next h => rw [h]

/-- The character that is filled in is stored at the same place, in the same buffer. -/
theorem fill_keeps {s s' : Readline} {io io' : Io} (h : s.fill io = some (.filled s', io')) :
    s'.len = s.len ∧ s'.off = s.off ∧ s'.mem = s.mem := by
  obtain ⟨got, -, -, -, rfl⟩ | ⟨-, -, rfl⟩ := Readline.fill_filled h
  · exact ⟨rfl, rfl, rfl⟩
  · exact ⟨rfl, rfl, rfl⟩

/-- `readline` stores what the accesses say and nothing else. -/
theorem readlineLoop_mem {io : Io} {s : Readline} {r : Result} (got : List UInt8)
    (h : readlineLoop io s = some r) :
    r.mem = (accesses io got s).foldl (fun mem a => mem.set a.off a.byte) s.mem := by
  fun_induction readlineLoop io s generalizing got with
  | case1 io s hlen hfill => cases h
  | case2 io s hlen rc io' hfill =>
    obtain rfl := Option.some.inj h
    rw [accesses_eq hlen, hfill]
    rfl
  | case3 io s hlen s' io' hfill ih =>
    obtain ⟨hs, -⟩ := Readline.fill_again hfill
    rw [ih (s.latest io got) h, accesses_eq hlen, hfill, hs]
  | case4 io s hlen s' io' hfill hchar =>
    have hmem : s'.mem = s.mem := (fill_keeps hfill).2.2
    obtain rfl := Option.some.inj h
    rw [accesses_eq hlen, hfill]
    dsimp only
    rw [if_pos hchar, List.foldl_cons, List.foldl_cons, List.foldl_nil, ← hmem]
    rfl
  | case5 io s hlen s' io' hfill hchar ih =>
    have hmem : s'.mem = s.mem := (fill_keeps hfill).2.2
    rw [ih (s.latest io got) h, accesses_eq hlen, hfill]
    dsimp only
    rw [if_neg hchar, List.foldl_cons, ← hmem]
    rfl
  | case6 io s hlen =>
    obtain rfl := Option.some.inj h
    rw [accesses, dif_neg hlen]
    rfl

/-! The bytes. -/

/-- What is left of `got` is at `bp` in the local buffer. -/
def Readline.Holds (s : Readline) (got : List UInt8) : Prop :=
  1 < s.cnt → s.bp+(s.cnt-1).toNat = got.length ∧ got <+: s.b ∧ got.length ≤ 1500

/-- The character is one that `recv` last delivered, and after it comes the rest. -/
theorem holds_fill {s s' : Readline} {io io' : Io} {got : List UInt8} (hholds : s.Holds got)
    (h : s.fill io = some (.filled s', io')) :
    (s.latest io got).length ≤ 1500 ∧ (s.latest io got)[s'.bp]? = some s'.char ∧
      s'.store.Holds (s.latest io got) := by
  obtain ⟨l, hcnt, hread, hne, rfl⟩ | ⟨hcnt, rfl, rfl⟩ := Readline.fill_filled h
  · -- a new piece, of which this is the first byte
    have hlatest : s.latest io got = l := by
      rw [Readline.latest, if_pos (by omega), hread]
    have hsize : l.length ≤ 1500 := by
      obtain ⟨n, answers, -, hl, -⟩ := read_give hread
      rw [hl, List.length_take]
      omega
    have hb : copyTo s.b 0 l = l ++ s.b.drop l.length := by
      rw [copyTo, List.take_zero, List.nil_append, Nat.zero_add]
    rw [hlatest]
    refine ⟨hsize, ?_, fun _ => ⟨?_, ?_, hsize⟩⟩
    · have hpos : 0 < l.length := Nat.pos_of_ne_zero hne
      change l[0]? = some ((copyTo s.b 0 l).getD 0 0)
      rw [hb, List.getD_append _ _ _ _ hpos, List.getD_eq_getElem _ _ hpos,
        List.getElem?_eq_getElem hpos]
    · change 0+1+((l.length : ℤ)-1).toNat = l.length
      omega
    · change l <+: copyTo s.b 0 l
      rw [hb]
      exact List.prefix_append _ _
  · -- the next byte of the last piece
    have hlatest : s.latest io' got = got := by
      rw [Readline.latest, if_neg (by omega)]
    obtain ⟨hcount, ⟨rest, hb⟩, hsize⟩ := hholds hcnt
    rw [hlatest]
    have hlt : s.bp < got.length := by omega
    refine ⟨hsize, ?_, fun hmore => ⟨?_, ⟨rest, hb⟩, hsize⟩⟩
    · change got[s.bp]? = some (s.b.getD s.bp 0)
      rw [← hb, List.getD_append _ _ _ _ hlt, List.getD_eq_getElem _ _ hlt,
        List.getElem?_eq_getElem hlt]
    · change 1 < s.cnt-1 at hmore
      change s.bp+1+(s.cnt-1-1).toNat = got.length
      omega

/-- Every byte is delivered by the latest `recv`, for any length. -/
theorem accesses_delivered {io : Io} {got : List UInt8} {s : Readline} (hholds : s.Holds got) :
    ∀ a ∈ accesses io got s, a.Delivered := by
  fun_induction accesses io got s with
  | case1 io got s hlen hfill => exact fun a ha => absurd ha List.not_mem_nil
  | case2 io got s hlen rc io' hfill => exact fun a ha => absurd ha List.not_mem_nil
  | case3 io got s hlen s' io' hfill ih =>
    obtain ⟨rfl, -⟩ := Readline.fill_again hfill
    apply ih
    intro hcnt
    change (1 : ℤ) < -1 at hcnt
    omega
  | case4 io got s hlen s' io' hfill copied hchar =>
    have hholds' : Readline.Holds { s with len := s.len-1 } got := hholds
    obtain ⟨hsize, hbyte, -⟩ := holds_fill hholds' hfill
    intro a ha
    rcases List.mem_cons.mp ha with rfl | ha
    · exact ⟨hsize, hbyte⟩
    · rw [List.mem_singleton.mp ha]
      trivial
  | case5 io got s hlen s' io' hfill copied hchar ih =>
    have hholds' : Readline.Holds { s with len := s.len-1 } got := hholds
    obtain ⟨hsize, hbyte, hnext⟩ := holds_fill hholds' hfill
    intro a ha
    rcases List.mem_cons.mp ha with rfl | ha
    · exact ⟨hsize, hbyte⟩
    · exact ih hnext a ha
  | case6 io got s hlen => exact fun a ha => absurd ha List.not_mem_nil

/-! The places. -/

/-- At most `len` accesses are to come, and they are the next places. -/
theorem accesses_off {io : Io} {got : List UInt8} {s : Readline} :
    (accesses io got s).length ≤ s.len ∧
      (accesses io got s).map Access.off = List.range' s.off (accesses io got s).length := by
  fun_induction accesses io got s with
  | case1 io got s hlen hfill => exact ⟨Nat.zero_le _, rfl⟩
  | case2 io got s hlen rc io' hfill => exact ⟨Nat.zero_le _, rfl⟩
  | case3 io got s hlen s' io' hfill ih =>
    obtain ⟨rfl, -⟩ := Readline.fill_again hfill
    obtain ⟨hle, hoff⟩ := ih
    refine ⟨hle.trans ?_, hoff⟩
    change s.len-1+1 ≤ s.len
    omega
  | case4 io got s hlen s' io' hfill copied hchar =>
    have hkeep : s'.off = s.off := (fill_keeps hfill).2.1
    refine ⟨?_, ?_⟩
    · change 2 ≤ s.len
      omega
    · change [s'.off, s'.off+1] = [s.off, s.off+1]
      rw [hkeep]
  | case5 io got s hlen s' io' hfill copied hchar ih =>
    obtain ⟨hkeeplen, hkeep, -⟩ := fill_keeps hfill
    obtain ⟨hle, hoff⟩ := ih
    constructor
    · have hlen' : s'.store.len = s.len-1 := hkeeplen
      rw [List.length_cons]
      omega
    · have hoff' : s'.store.off = s.off+1 := congrArg (·+1) hkeep
      rw [List.map_cons, List.length_cons, List.range'_succ, hoff, hoff']
      exact congrArg₂ List.cons hkeep rfl
  | case6 io got s hlen => exact ⟨Nat.zero_le _, rfl⟩

/-- The first call of `recv` that is not interrupted delivers a byte. -/
def FirstByte (io : Io) : Prop :=
  io.stream ≠ [] ∧ ∃ n, io.answers.find? Answer.steady = some (.give n)

theorem fill_interrupted {s s' : Readline} {io io' : Io}
    (h : s.fill io = some (.again s', io')) : io'.errno = EINTR := by
  obtain ⟨-, -, ⟨herr, -⟩ | ⟨-, hf⟩⟩ | ⟨_, -, -, ⟨-, hf⟩ | ⟨-, hf⟩⟩ | ⟨-, -, hf⟩ :=
    Readline.fill_cases h
  · exact herr
  all_goals cases hf

theorem firstByte_of_filled {s s' : Readline} {io io' : Io} (hcnt : s.cnt ≤ 1)
    (h : s.fill io = some (.filled s', io')) : FirstByte io := by
  obtain ⟨l, -, hread, hne, -⟩ | ⟨hmore, -⟩ := Readline.fill_filled h
  · obtain ⟨n, answers, ha, hl, -⟩ := read_give hread
    refine ⟨?_, n, ?_⟩
    · intro hnil
      rw [hl, hnil, List.take_nil] at hne
      exact hne rfl
    · rw [ha]
      rfl
  · omega

/-- Without room for a character and its NUL nothing is stored; with it, a byte is enough. -/
theorem accesses_eq_nil_iff {io : Io} {got : List UInt8} {s : Readline} (hlen : 1 < s.len)
    (hcnt : s.cnt ≤ 1) : accesses io got s = [] ↔ ¬ FirstByte io := by
  fun_induction accesses io got s with
  | case1 io got s hroom hfill =>
    refine iff_of_true rfl ?_
    rintro ⟨-, n, hfind⟩
    rw [(fill_none hfill).2] at hfind
    cases hfind
  | case2 io got s hroom rc io' hfill =>
    refine iff_of_true rfl ?_
    rintro ⟨hne, n, hfind⟩
    obtain ⟨-, ⟨-, herr, hread⟩ | ⟨-, hread⟩⟩ := Readline.fill_ret hfill
    · obtain ⟨e, answers, ha, rfl⟩ := read_fail hread
      have hsteady : (Answer.fail e).steady = true := by
        apply steady_of_ne
        exact fun heq => herr (Answer.fail.inj heq)
      rw [ha, List.find?_cons_of_pos hsteady] at hfind
      cases hfind
    · obtain ⟨m, answers, -, hl, -⟩ := read_give hread
      have hzero := congrArg List.length hl
      rw [List.length_nil, List.length_take] at hzero
      exact hne (List.length_eq_zero_iff.mp (by omega))
  | case3 io got s hroom s' io' hfill ih =>
    have herr := fill_interrupted hfill
    obtain ⟨rfl, -, hread⟩ := Readline.fill_again hfill
    obtain ⟨e, answers, ha, rfl⟩ := read_fail hread
    have hsame : FirstByte io ↔ FirstByte { io with answers := answers, errno := e } := by
      rw [FirstByte, ha, List.find?_cons_of_neg (not_steady_of_eq herr)]
      rfl
    rw [hsame]
    apply ih
    · change 1 < s.len-1+1
      omega
    · change (-1 : ℤ) ≤ 1
      decide
  | case4 io got s hroom s' io' hfill copied hchar =>
    have hcnt' : Readline.cnt { s with len := s.len-1 } ≤ 1 := hcnt
    exact iff_of_false (List.cons_ne_nil _ _) (not_not.mpr (firstByte_of_filled hcnt' hfill))
  | case5 io got s hroom s' io' hfill copied hchar ih =>
    have hcnt' : Readline.cnt { s with len := s.len-1 } ≤ 1 := hcnt
    exact iff_of_false (List.cons_ne_nil _ _) (not_not.mpr (firstByte_of_filled hcnt' hfill))
  | case6 io got s hroom => omega

/-- At most `len` bytes are stored, all in the caller's buffer, and each byte is one that `recv`
last delivered. -/
def StaysInside (len : ℕ) (as : List Access) : Prop :=
  as.length ≤ len ∧ (∀ a ∈ as, a.off < len) ∧ ∀ a ∈ as, a.Delivered

/-- `readline` stays inside the caller's buffer exactly when the buffer has room for a byte or no
byte is delivered; what it leaves in the buffer is what it stored there. -/
theorem readline_stays_inside_iff (len : ℕ) (io : Io) (mem : List UInt8) :
    (StaysInside len (readlineAccesses len io mem) ↔ 1 ≤ len ∨ ¬ FirstByte io) ∧
    ∀ r, readline len io mem = some r →
      r.mem = (readlineAccesses len io mem).foldl (fun mem a => mem.set a.off a.byte) mem := by
  refine ⟨?_, fun r hr => readlineLoop_mem [] hr⟩
  have hdelivered : ∀ a ∈ readlineAccesses len io mem, a.Delivered := by
    apply accesses_delivered
    intro hcnt
    change (1 : ℤ) < 0 at hcnt
    omega
  obtain ⟨hcount, hoff⟩ := @accesses_off io [] (Readline.start len mem)
  obtain rfl | hpos := Nat.eq_zero_or_pos len
  · -- `--len` wraps
    have hnil : readlineAccesses 0 io mem = [] ↔ ¬ FirstByte io :=
      accesses_eq_nil_iff (show 1 < 2^64 by decide) (show (0 : ℤ) ≤ 1 by decide)
    rw [← hnil]
    constructor
    · rintro ⟨hnone, -⟩
      exact .inr (List.length_eq_zero_iff.mp (Nat.le_zero.mp hnone))
    · rintro (hpos | hnil)
      · cases hpos
      · rw [hnil]
        exact ⟨le_rfl, fun a ha => absurd ha List.not_mem_nil,
          fun a ha => absurd ha List.not_mem_nil⟩
  · have hlen : (Readline.start len mem).len = len := if_neg (by omega)
    rw [hlen] at hcount
    refine iff_of_true ⟨hcount, fun a ha => ?_, hdelivered⟩ (.inl hpos)
    have hmem := List.mem_map_of_mem (f := Access.off) ha
    rw [readlineAccesses, hoff] at hmem
    have hlt := (List.mem_range'_1.mp hmem).2
    change a.off < 0+_ at hlt
    omega

/-- One byte, and a buffer that has no room for it. -/
theorem readline_leaves_empty_buffer :
    ¬ StaysInside 0 (readlineAccesses 0 ⟨[97], [.give 0], 0⟩ []) := by
  rintro ⟨hnone, -⟩
  have hnil := List.length_eq_zero_iff.mp (Nat.le_zero.mp hnone)
  have hbyte : ¬ FirstByte ⟨[97], [.give 0], 0⟩ :=
    (accesses_eq_nil_iff (show 1 < 2^64 by decide) (show (0 : ℤ) ≤ 1 by decide)).mp hnil
  exact hbyte ⟨List.cons_ne_nil _ _, 0, rfl⟩

end LinuxPrograms.Etcp
