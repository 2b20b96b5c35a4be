import LinuxPrograms.SelectServerModel

/-! The loop of `TransmitPending`, round by round, and the moments of successive calls: what holds
at every moment of a call and of the calls after it, followed one result of `send` at a time. -/
namespace LinuxPrograms.SelectServer
open Lib

/-! The memory behind the buffer. -/

theorem Connection.Pending.memory {c : Connection} {s : List UInt8} (h : c.Pending s) :
    c.memory = s ++ 0 :: (List.replicate (netBufferSize-s.length-1) 0 ++
      (c.partialSendBuffer.toList ++ c.recvBuffer.toList)) := by
  have hsize : netBufferSize-s.length = netBufferSize-s.length-1+1 := by
    have hfits := h.fits
    omega
  rw [Connection.memory, h.bytes, hsize, List.replicate_succ, List.append_assoc]
  rfl

theorem Connection.Pending.memory_drop {c : Connection} {s : List UInt8} (h : c.Pending s) {k : ℕ}
    (hk : k ≤ s.length) : ∃ l, c.memory.drop k = s.drop k ++ 0 :: l := by
  rw [h.memory, List.drop_append_of_le_length hk]
  exact ⟨_, rfl⟩

theorem Connection.Pending.strlen_drop {c : Connection} {s : List UInt8} (h : c.Pending s) {k : ℕ}
    (hk : k ≤ s.length) : strlen (c.memory.drop k) = s.length-k := by
  obtain ⟨l, hl⟩ := h.memory_drop hk
  have hno : 0 ∉ s.drop k := fun hmem => h.noNul (List.mem_of_mem_drop hmem)
  rw [hl, strlen_append_zero hno, List.length_drop]

/-- The byte behind the string's terminating byte is zero. -/
def ZeroBehind (c : Connection) (s : List UInt8) : Prop :=
  s.length+1 < netBufferSize ∨ c.partialSendBuffer.toList.head? = some 0

theorem Connection.Pending.strlen_behind {c : Connection} {s : List UInt8} (h : c.Pending s) :
    strlen (c.memory.drop (s.length+1)) = 0 ↔ ZeroBehind c s := by
  have hfits := h.fits
  have hdrop : c.memory.drop (s.length+1) = List.replicate (netBufferSize-s.length-1) 0 ++
      (c.partialSendBuffer.toList ++ c.recvBuffer.toList) := by
    rw [h.memory, List.drop_length_add_append, List.drop_succ_cons, List.drop_zero]
  rw [hdrop]
  by_cases hlast : s.length+1 < netBufferSize
  · obtain ⟨n, hn⟩ : ∃ n, netBufferSize-s.length-1 = n+1 := ⟨netBufferSize-s.length-2, by omega⟩
    rw [hn, List.replicate_succ, List.cons_append]
    exact iff_of_true (strlen_zero_cons _) (.inl hlast)
  · have hzero : netBufferSize-s.length-1 = 0 := by omega
    rw [hzero, List.replicate_zero, List.nil_append, ZeroBehind, or_iff_right hlast]
    obtain ⟨b, l, hl⟩ : ∃ b l, c.partialSendBuffer.toList = b :: l := by
      apply List.exists_cons_of_ne_nil
      apply List.ne_nil_of_length_pos
      rw [Vector.length_toList]
      decide
    rw [hl, List.cons_append, List.head?_cons, Option.some_inj]
    by_cases hb : b = 0
    · rw [hb]
      exact iff_of_true (strlen_zero_cons _) rfl
    · rw [strlen_cons_of_ne hb]
      exact iff_of_false (Nat.succ_ne_zero _) hb

/-- What is left after `memset`. -/
theorem Connection.clear_pending (c : Connection) : c.clear.Pending [] where
  bytes := rfl
  noNul := List.not_mem_nil
  fits := by decide

theorem pendingBytes_length (s : List UInt8) : (pendingBytes s).length = s.length+1 := by
  rw [pendingBytes, List.length_zipIdx, List.length_append, List.length_singleton]

/-- The bytes a `send` from place `k` can take. -/
theorem zipIdx_drop_take {α : Type*} (l : List α) (k m : ℕ) :
    ((l.drop k).take m).zipIdx k = (l.zipIdx.drop k).take m := by
  apply List.ext_getElem?
  intro i
  simp only [List.getElem?_zipIdx, List.getElem?_take, List.getElem?_drop, Nat.zero_add]
  split <;> rfl

/-! The moments of a call. -/

/-- One round of the loop: the connection, the variables at the test of the `for`, and the bytes
taken. -/
def round (c : Connection) (l : Locals) (buffer : ℕ) (r : SendResult) :
    Connection × Locals × List (UInt8 × ℕ) :=
  let (bytes, savedErrno, taken) := send c buffer r
  let (c, l) := transmitBody c l buffer bytes savedErrno
  (c, { l with buffer := l.nextBuffer }, taken)

/-- Where a round leaves `buffer`. -/
def moved (buffer : ℕ) (bytes : ℤ) : ℕ := if 0 < bytes then buffer+bytes.toNat else buffer

/-- Nothing is left of the string: the buffer is cleared, and `nextBuffer` stays. -/
theorem transmitBody_empty {c : Connection} {l : Locals} {buffer : ℕ} {bytes : ℤ} {e : ℕ}
    (h : strlen (c.memory.drop (moved buffer bytes)) = 0) :
    transmitBody c l buffer bytes e = (c.clear,
      if bytes < 0 ∧ e ≠ 0 then ⟨false, decide (e = EWOULDBLOCK), none, l.nextBuffer⟩
      else { l with buffer := none }) := by
  unfold moved at h
  simp only [transmitBody, h, decide_true, if_true]
  by_cases hneg : bytes < 0
  · by_cases he : e = 0
    · simp [he]
    · by_cases hblock : e = EWOULDBLOCK
      · subst hblock
        simp only [hneg, he, if_true, if_false, ne_eq, not_false_eq_true, and_self, decide_true]
      · simp [hneg, he, hblock]
  · simp [hneg]

/-- Something is left. -/
theorem transmitBody_more {c : Connection} {l : Locals} {buffer : ℕ} {bytes : ℤ} {e : ℕ}
    (h : strlen (c.memory.drop (moved buffer bytes)) ≠ 0) :
    transmitBody c l buffer bytes e =
      if bytes < 0 ∧ e ≠ 0 then
        if e = EWOULDBLOCK then
          (c, ⟨false, true, some (moved buffer bytes), some (moved buffer bytes)⟩)
        else (c.clear, ⟨false, false, none, none⟩)
      else (c, { l with buffer := some (moved buffer bytes),
                        nextBuffer := some (moved buffer bytes) }) := by
  unfold moved at h ⊢
  simp only [transmitBody, h, decide_false, Bool.false_eq_true, if_false]
  by_cases hneg : bytes < 0
  · by_cases he : e = 0
    · simp [he]
    · by_cases hblock : e = EWOULDBLOCK
      · subst hblock
        simp only [hneg, he, if_true, if_false, ne_eq, not_false_eq_true, and_self]
      · simp [hneg, he, hblock]
  · simp [hneg]

/-- A call that is in its loop with the variables `l`, has sent `sent` and has used `used`, and the
calls after it. -/
structure LoopAt (s : List UInt8) (before sent : List (UInt8 × ℕ)) (used : List SendResult)
    (c : Connection) (l : Locals) (moment : List SendResult) : Prop where
  call : CallOk s before (transmitLoop c l moment).status (transmitLoop c l moment).conn
    (sent ++ (transmitLoop c l moment).sent) (used ++ (transmitLoop c l moment).used)
  later : (transmitLoop c l moment).status ≠ none →
    SentAt s (before ++ (sent ++ (transmitLoop c l moment).sent)) (transmitLoop c l moment).conn
      (transmitLoop c l moment).rest

/-- The variables when the loop is entered. -/
def start : Locals := ⟨true, true, some 0, none⟩

/-- The moments of the calls are those of the first call and those of the calls after it. -/
theorem sentAt_iff {s : List UInt8} {before : List (UInt8 × ℕ)} {c : Connection}
    {moment : List SendResult} :
    SentAt s before c moment ↔ LoopAt s before [] [] c start moment := by
  constructor
  · intro h
    refine ⟨?_, fun hreturned n a ha => ?_⟩
    · have hfirst := h 0 ⟨c, [], moment⟩ rfl
      rwa [List.append_nil] at hfirst
    · obtain ⟨st, hst⟩ := Option.ne_none_iff_exists'.mp hreturned
      have hnext := h (n+1) { a with sent := (transmitPending c moment).sent ++ a.sent } (by
        have hcall : (transmitPending c moment).status = some st := hst
        simp only [transmitPendings, hcall]
        exact congrArg (Option.map _) ha)
      rw [← List.append_assoc] at hnext
      exact hnext
  · intro h n a ha
    cases n with
    | zero =>
      obtain rfl := Option.some.inj ha
      rw [List.append_nil]
      exact h.call
    | succ n =>
      cases hst : (transmitPending c moment).status with
      | none =>
        simp only [transmitPendings, hst] at ha
        cases ha
      | some st =>
        simp only [transmitPendings, hst] at ha
        obtain ⟨a', ha', rfl⟩ := Option.map_eq_some_iff.mp ha
        have hreturned : (transmitPending c moment).status ≠ none := by
          rw [hst]
          exact Option.some_ne_none st
        have hnext := h.later hreturned n a' ha'
        rw [List.nil_append, List.append_assoc] at hnext
        exact hnext

section Loop

variable {s : List UInt8} {before sent : List (UInt8 × ℕ)} {used : List SendResult}
  {c : Connection}

theorem transmitLoop_cons (hc : c.socket ≠ -1) (status : Bool) (k : ℕ) (next : Option ℕ)
    (r : SendResult) (rest : List SendResult) :
    transmitLoop c ⟨true, status, some k, next⟩ (r :: rest) =
      let x := round c ⟨true, status, some k, next⟩ k r
      let call := transmitLoop x.1 x.2.1 rest
      { call with sent := x.2.2 ++ call.sent, used := r :: call.used } := by
  rw [transmitLoop]
  simp only [if_neg hc]
  rfl

theorem transmitLoop_nil (hc : c.socket ≠ -1) (status : Bool) (k : ℕ) (next : Option ℕ) :
    transmitLoop c ⟨true, status, some k, next⟩ [] = ⟨none, c, [], [], []⟩ := by
  rw [transmitLoop]
  simp only [if_neg hc]

theorem transmitLoop_left {l : Locals} (hl : l.ok = false ∨ l.buffer = none)
    (results : List SendResult) :
    transmitLoop c l results = ⟨some l.status, c, [], [], results⟩ := by
  obtain ⟨ok, status, buffer, next⟩ := l
  cases results <;> rcases hl with rfl | rfl <;> (try cases ok) <;> rfl

/-- Every moment of a call that is in its loop, and of the calls after it. -/
def LoopOk (s : List UInt8) (before sent : List (UInt8 × ℕ)) (used : List SendResult)
    (c : Connection) (l : Locals) (results : List SendResult) : Prop :=
  ∀ moment, moment <+: results → LoopAt s before sent used c l moment

/-- Every moment of the calls from a connection on. -/
def SentFrom (s : List UInt8) (before : List (UInt8 × ℕ)) (c : Connection)
    (results : List SendResult) : Prop :=
  LoopOk s before [] [] c start results

theorem loopAt_nil (hc : c.socket ≠ -1) (status : Bool) (k : ℕ) (next : Option ℕ) :
    LoopAt s before sent used c ⟨true, status, some k, next⟩ [] ↔
      CallOk s before none c sent used := by
  have hloop := transmitLoop_nil hc status k next
  constructor
  · intro h
    have hcall := h.call
    rwa [hloop, List.append_nil, List.append_nil] at hcall
  · intro h
    refine ⟨?_, fun hreturned => ?_⟩
    · rwa [hloop, List.append_nil, List.append_nil]
    · rw [hloop] at hreturned
      exact absurd rfl hreturned

theorem loopAt_cons (hc : c.socket ≠ -1) {status : Bool} {k : ℕ} {next : Option ℕ}
    {r : SendResult} {rest : List SendResult} :
    LoopAt s before sent used c ⟨true, status, some k, next⟩ (r :: rest) ↔
      LoopAt s before (sent ++ (round c ⟨true, status, some k, next⟩ k r).2.2) (used ++ [r])
        (round c ⟨true, status, some k, next⟩ k r).1
        (round c ⟨true, status, some k, next⟩ k r).2.1 rest := by
  have hloop := transmitLoop_cons hc status k next r rest
  constructor
  · intro h
    obtain ⟨hcall, hlater⟩ := h
    rw [hloop] at hcall hlater
    refine ⟨?_, fun hreturned => ?_⟩
    · rw [List.append_assoc, List.append_assoc]
      exact hcall
    · rw [List.append_assoc]
      exact hlater hreturned
  · intro h
    obtain ⟨hcall, hlater⟩ := h
    rw [List.append_assoc] at hcall hlater
    rw [List.append_assoc] at hcall
    refine ⟨?_, ?_⟩
    · rw [hloop]
      exact hcall
    · rw [hloop]
      exact hlater

theorem loopAt_left {l : Locals} (hl : l.ok = false ∨ l.buffer = none)
    {moment : List SendResult} :
    LoopAt s before sent used c l moment ↔
      CallOk s before (some l.status) c sent used ∧ SentAt s (before ++ sent) c moment := by
  have hloop := transmitLoop_left (c := c) hl moment
  constructor
  · intro h
    obtain ⟨hcall, hlater⟩ := h
    rw [hloop] at hcall hlater
    rw [List.append_nil, List.append_nil] at hcall
    rw [List.append_nil] at hlater
    exact ⟨hcall, hlater (Option.some_ne_none _)⟩
  · rintro ⟨hcall, hlater⟩
    refine ⟨?_, fun _ => ?_⟩
    · rwa [hloop, List.append_nil, List.append_nil]
    · rwa [hloop, List.append_nil]

theorem forall_prefix_cons {P : List SendResult → Prop} {r : SendResult}
    {rest : List SendResult} :
    (∀ moment, moment <+: r :: rest → P moment) ↔
      P [] ∧ ∀ moment, moment <+: rest → P (r :: moment) := by
  constructor
  · intro h
    exact ⟨h [] List.nil_prefix, fun m hm => h _ (List.cons_prefix_cons.mpr ⟨rfl, hm⟩)⟩
  · rintro ⟨hnil, hcons⟩ m hm
    rcases List.prefix_cons_iff.mp hm with rfl | ⟨m', rfl, hm'⟩
    · exact hnil
    · exact hcons m' hm'

/-- In the loop, and no result to come. -/
theorem loopOk_nil (hc : c.socket ≠ -1) {status : Bool} {k : ℕ} {next : Option ℕ} :
    LoopOk s before sent used c ⟨true, status, some k, next⟩ [] ↔
      CallOk s before none c sent used := by
  rw [← loopAt_nil hc status k next]
  constructor
  · exact fun h => h [] List.nil_prefix
  · intro h m hm
    rwa [List.prefix_nil.mp hm]

/-- In the loop, one round. -/
theorem loopOk_cons (hc : c.socket ≠ -1) {status : Bool} {k : ℕ} {next : Option ℕ}
    {r : SendResult} {rest : List SendResult} :
    LoopOk s before sent used c ⟨true, status, some k, next⟩ (r :: rest) ↔
      CallOk s before none c sent used ∧
      LoopOk s before (sent ++ (round c ⟨true, status, some k, next⟩ k r).2.2) (used ++ [r])
        (round c ⟨true, status, some k, next⟩ k r).1
        (round c ⟨true, status, some k, next⟩ k r).2.1 rest := by
  rw [LoopOk, forall_prefix_cons, loopAt_nil hc]
  exact and_congr_right' (forall₂_congr fun m _ => loopAt_cons hc)

/-- The loop is left, and the next call comes. -/
theorem loopOk_left {l : Locals} (hl : l.ok = false ∨ l.buffer = none)
    {results : List SendResult} :
    LoopOk s before sent used c l results ↔
      CallOk s before (some l.status) c sent used ∧ SentFrom s (before ++ sent) c results := by
  unfold SentFrom LoopOk
  constructor
  · intro h
    exact ⟨((loopAt_left hl).mp (h [] List.nil_prefix)).1,
      fun m hm => sentAt_iff.mp ((loopAt_left hl).mp (h m hm)).2⟩
  · rintro ⟨hcall, hlater⟩ m hm
    exact (loopAt_left hl).mpr ⟨hcall, sentAt_iff.mpr (hlater m hm)⟩

/-- What the socket has taken so far is in order. -/
theorem LoopOk.inOrder {l : Locals} {results : List SendResult}
    (h : LoopOk s before sent used c l results) : before ++ sent <+: pendingBytes s := by
  have hcall := (h [] List.nil_prefix).call.inOrder
  rw [← List.append_assoc] at hcall
  exact (List.prefix_append _ _).trans hcall

end Loop

/-! The rounds. -/

/-- `send` fails, and the loop is left. -/
def SendResult.Refuses : SendResult → Prop
  | .took _ => False
  | .failed e => e ≠ 0

/-- Nothing is accepted. -/
def Quiet (results : List SendResult) : Prop := ∀ r ∈ results, ¬ r.Accepts

theorem quiet_cons {r : SendResult} {rest : List SendResult} :
    Quiet (r :: rest) ↔ ¬ r.Accepts ∧ Quiet rest := List.forall_mem_cons

section Rounds

variable {c : Connection} {k : ℕ} {next : Option ℕ} {r : SendResult}

/-- The bytes a `send` takes. -/
theorem round_taken (c : Connection) (k n : ℕ) (next : Option ℕ) :
    (round c ⟨true, true, some k, next⟩ k (.took n)).2.2 =
      ((c.memory.drop k).take (min n (strlen (c.memory.drop k)+1))).zipIdx k := rfl

theorem moved_natCast (k m : ℕ) : moved k m = k+m := by
  unfold moved
  split
  · rw [Int.toNat_natCast]
  · have hzero : m = 0 := by omega
    rw [hzero, Nat.add_zero]

theorem moved_neg (k : ℕ) : moved k (-1) = k := rfl

/-- The last byte before a zero byte is taken: the buffer is cleared, and the loop goes on where it
was in the round before. -/
theorem round_took_empty {n m : ℕ} (hm : min n (strlen (c.memory.drop k)+1) = m)
    (hempty : strlen (c.memory.drop (k+m)) = 0) :
    (round c ⟨true, true, some k, next⟩ k (.took n)).1 = c.clear ∧
      (round c ⟨true, true, some k, next⟩ k (.took n)).2.1 = ⟨true, true, next, next⟩ := by
  have hbody := transmitBody_empty (l := ⟨true, true, some k, next⟩) (e := 0)
    (by rw [moved_natCast k m]; exact hempty)
  have hpos : ¬ ((m : ℤ) < 0 ∧ (0 : ℕ) ≠ 0) := fun h => h.2 rfl
  rw [if_neg hpos] at hbody
  constructor <;> simp only [round, send, hm, hbody]

/-- A part of the string is taken. -/
theorem round_took_more {n m : ℕ} (hm : min n (strlen (c.memory.drop k)+1) = m)
    (hmore : strlen (c.memory.drop (k+m)) ≠ 0) :
    (round c ⟨true, true, some k, next⟩ k (.took n)).1 = c ∧
      (round c ⟨true, true, some k, next⟩ k (.took n)).2.1 =
        ⟨true, true, some (k+m), some (k+m)⟩ := by
  have hbody := transmitBody_more (l := ⟨true, true, some k, next⟩) (e := 0)
    (by rw [moved_natCast k m]; exact hmore)
  have hpos : ¬ ((m : ℤ) < 0 ∧ (0 : ℕ) ≠ 0) := fun h => h.2 rfl
  rw [if_neg hpos, moved_natCast] at hbody
  constructor <;> simp only [round, send, hm, hbody]

variable (next) in
/-- Nothing is taken and nothing is refused: no byte, or a failure without an error number. -/
theorem round_idle (haccept : ¬ r.Accepts) (hrefuse : ¬ r.Refuses) :
    (round c ⟨true, true, some k, next⟩ k r).2.2 = [] ∧
      ((strlen (c.memory.drop k) = 0 ∧ (round c ⟨true, true, some k, next⟩ k r).1 = c.clear ∧
          (round c ⟨true, true, some k, next⟩ k r).2.1 = ⟨true, true, next, next⟩) ∨
        (strlen (c.memory.drop k) ≠ 0 ∧ (round c ⟨true, true, some k, next⟩ k r).1 = c ∧
          (round c ⟨true, true, some k, next⟩ k r).2.1 = ⟨true, true, some k, some k⟩)) := by
  cases r with
  | took n =>
    obtain rfl : n = 0 := Nat.eq_zero_of_not_pos haccept
    have hm : min 0 (strlen (c.memory.drop k)+1) = 0 := Nat.zero_min _
    refine ⟨by rw [round_taken, hm]; rfl, ?_⟩
    by_cases hempty : strlen (c.memory.drop k) = 0
    · exact .inl ⟨hempty, round_took_empty hm hempty⟩
    · exact .inr ⟨hempty, round_took_more hm hempty⟩
  | failed e =>
    obtain rfl : e = 0 := not_not.mp hrefuse
    refine ⟨rfl, ?_⟩
    by_cases hempty : strlen (c.memory.drop k) = 0
    · have hbody := transmitBody_empty (l := ⟨true, true, some k, next⟩) (e := 0)
        (by rw [moved_neg k]; exact hempty)
      rw [if_neg fun h => h.2 rfl] at hbody
      refine .inl ⟨hempty, ?_⟩
      constructor <;> simp only [round, send, hbody]
    · have hbody := transmitBody_more (l := ⟨true, true, some k, next⟩) (e := 0)
        (by rw [moved_neg k]; exact hempty)
      rw [if_neg (fun h => h.2 rfl), moved_neg] at hbody
      refine .inr ⟨hempty, ?_⟩
      constructor <;> simp only [round, send, hbody]

variable (next) in
/-- A refusal ends the loop; only `EWOULDBLOCK` leaves the string in the buffer. -/
theorem round_refused {e : ℕ} (he : e ≠ 0) :
    (round c ⟨true, true, some k, next⟩ k (.failed e)).2.2 = [] ∧
      (round c ⟨true, true, some k, next⟩ k (.failed e)).2.1.ok = false ∧
      (round c ⟨true, true, some k, next⟩ k (.failed e)).1 =
        if strlen (c.memory.drop k) ≠ 0 ∧ e = EWOULDBLOCK then c else c.clear := by
  refine ⟨rfl, ?_⟩
  by_cases hempty : strlen (c.memory.drop k) = 0
  · have hbody := transmitBody_empty (l := ⟨true, true, some k, next⟩) (e := e)
      (by rw [moved_neg k]; exact hempty)
    rw [if_pos ⟨by decide, he⟩] at hbody
    rw [if_neg fun h => h.1 hempty]
    constructor <;> simp only [round, send, hbody]
  · have hbody := transmitBody_more (l := ⟨true, true, some k, next⟩) (e := e)
      (by rw [moved_neg k]; exact hempty)
    rw [if_pos ⟨by decide, he⟩] at hbody
    by_cases hblock : e = EWOULDBLOCK
    · rw [if_pos hblock] at hbody
      rw [if_pos ⟨hempty, hblock⟩]
      constructor <;> simp only [round, send, hbody]
    · rw [if_neg hblock] at hbody
      rw [if_neg fun h => hblock h.2]
      constructor <;> simp only [round, send, hbody]

end Rounds

end LinuxPrograms.SelectServer
