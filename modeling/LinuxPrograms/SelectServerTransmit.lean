import LinuxPrograms.SelectServerRounds
import Mathlib.Algebra.BigOperators.Group.List.Basic

/-! When `TransmitPending` sends a string once. After a part of the string was accepted the place is
kept by the call only, and even there the loop does not end once everything is sent. -/
namespace LinuxPrograms.SelectServer
open Lib

/-! When the place is lost. -/

/-- `n` bytes are sent, and what is sent next from place `k` is not the next byte of `s`. -/
def Lost (s : List UInt8) (c : Connection) (n k : ℕ) : Prop :=
  n ≠ k ∨ (k = 0 ∧ c.memory[0]? = some 0 ∧ s ≠ [])

theorem Lost.clear {s : List UInt8} {c : Connection} {n k : ℕ} (h : Lost s c n k) :
    Lost s c.clear n k :=
  h.imp_right fun h => ⟨h.1, rfl, h.2.2⟩

section Stuck

variable {s : List UInt8} {before sent : List (UInt8 × ℕ)} {used : List SendResult}
  {c : Connection} {k : ℕ}

theorem Connection.memory_length (c : Connection) : c.memory.length = 3*netBufferSize := by
  rw [Connection.memory, List.length_append, List.length_append, Vector.length_toList,
    Vector.length_toList, Vector.length_toList]
  omega

/-- A `send` that accepts anything takes the byte at `k` first. -/
theorem round_accepts (hk : k < netBufferSize) (next : Option ℕ) {r : SendResult}
    (hr : r.Accepts) : ∃ b l, c.memory[k]? = some b ∧
      (round c ⟨true, true, some k, next⟩ k r).2.2 = (b, k) :: l := by
  cases r with
  | failed e => exact hr.elim
  | took n =>
    have hlt : k < c.memory.length := by
      rw [c.memory_length]
      omega
    obtain ⟨m, hm⟩ : ∃ m, min n (strlen (c.memory.drop k)+1) = m+1 := by
      have hpos : 0 < n := hr
      exact ⟨min n (strlen (c.memory.drop k)+1)-1, by omega⟩
    refine ⟨c.memory[k], ((c.memory.drop (k+1)).take m).zipIdx (k+1),
      List.getElem?_eq_getElem hlt, ?_⟩
    rw [round_taken, hm, List.drop_eq_getElem_cons hlt, List.take_succ_cons, List.zipIdx_cons]

/-- When the place is lost, what is accepted next is out of order. -/
theorem Lost.not_prefix (hs : 0 ∉ s) {b : UInt8} {l : List (UInt8 × ℕ)}
    (hlost : Lost s c sent.length k) (hb : c.memory[k]? = some b) :
    ¬ sent ++ (b, k) :: l <+: pendingBytes s := by
  intro h
  obtain ⟨t, ht⟩ := h
  have hnext : (pendingBytes s)[sent.length]? = some (b, k) := by
    rw [← ht, List.append_assoc, List.getElem?_append_right le_rfl, Nat.sub_self]
    rfl
  rw [pendingBytes, List.getElem?_zipIdx, Nat.zero_add] at hnext
  obtain ⟨d, hd, hpair⟩ := Option.map_eq_some_iff.mp hnext
  obtain ⟨rfl, hplace⟩ := Prod.mk.inj hpair
  rcases hlost with hne | ⟨hzero, hhead, hnonempty⟩
  · exact hne hplace
  · -- the first byte of the string is not the zero that stands in its place
    rw [hzero, hhead] at hb
    obtain rfl := Option.some.inj hb
    obtain ⟨a, s, rfl⟩ := List.exists_cons_of_ne_nil hnonempty
    rw [hplace, hzero] at hd
    obtain rfl : a = 0 := Option.some.inj hd
    exact hs List.mem_cons_self

/-- A call that has not sent everything, and has not returned or was refused something. -/
theorem callOk_part {status : Option Bool} (hin : before ++ sent <+: pendingBytes s)
    (hshort : sent = [] ∨ (before ++ sent).length ≤ s.length)
    (hstatus : status = none ∨ ∃ r ∈ used, ¬ r.Accepts) : CallOk s before status c sent used where
  inOrder := hin
  complete := by
    intro _ hall hreturned
    rcases hstatus with hnone | ⟨r, hr, hrefused⟩
    · exact absurd hnone hreturned
    · exact absurd (hall r hr) hrefused
  ends := by
    intro hsent hall
    rcases hshort with hnil | hle
    · exact absurd hnil hsent
    · have hlength := hall.length_le
      rw [pendingBytes_length] at hlength
      omega

/-- Once the place is lost, all goes well exactly as long as nothing is accepted any more. -/
theorem stuck_iff (hc : c.socket ≠ -1) (hs : 0 ∉ s) (hk : k < netBufferSize) {next : Option ℕ}
    (hnext : next = none ∨ next = some k) (hplace : Lost s c (before ++ sent).length k)
    (hstart : Lost s c (before ++ sent).length 0)
    (hshort : sent = [] ∨ (before ++ sent).length ≤ s.length) {results : List SendResult} :
    LoopOk s before sent used c ⟨true, true, some k, next⟩ results ↔
      before ++ sent <+: pendingBytes s ∧ Quiet results := by
  induction results generalizing before sent used c k next with
  | nil =>
    rw [loopOk_nil hc]
    constructor
    · exact fun h => ⟨h.inOrder, List.forall_mem_nil _⟩
    · exact fun h => callOk_part h.1 hshort (.inl rfl)
  | cons r rest ih =>
    rw [loopOk_cons hc, quiet_cons]
    by_cases haccept : r.Accepts
    · obtain ⟨b, l, hb, htaken⟩ := round_accepts hk next haccept
      refine iff_of_false (fun h => ?_) fun h => h.2.1 haccept
      have hin := h.2.inOrder
      rw [htaken, ← List.append_assoc] at hin
      exact hplace.not_prefix hs hb hin
    have hquiet : ∃ x ∈ used ++ [r], ¬ x.Accepts :=
      ⟨r, List.mem_append_right _ (List.mem_singleton_self r), haccept⟩
    -- the call goes on, or returns and the next one starts
    have hloop (c' : Connection) (hc' : c'.socket ≠ -1)
        (hplace' : Lost s c' (before ++ sent).length k)
        (hstart' : Lost s c' (before ++ sent).length 0) :
        (CallOk s before none c sent used ∧
          LoopOk s before sent (used ++ [r]) c' ⟨true, true, some k, some k⟩ rest) ↔
        before ++ sent <+: pendingBytes s ∧ ¬ r.Accepts ∧ Quiet rest := by
      rw [ih hc' hk (.inr rfl) hplace' hstart' hshort]
      constructor
      · exact fun h => ⟨h.1.inOrder, haccept, h.2.2⟩
      · exact fun h => ⟨callOk_part h.1 hshort (.inl rfl), h.1, h.2.2⟩
    have hreturn (c' : Connection) (l : Locals) (hl : l.ok = false ∨ l.buffer = none)
        (hc' : c'.socket ≠ -1) (hstart' : Lost s c' (before ++ sent).length 0) :
        (CallOk s before none c sent used ∧ LoopOk s before sent (used ++ [r]) c' l rest) ↔
        before ++ sent <+: pendingBytes s ∧ ¬ r.Accepts ∧ Quiet rest := by
      have hcall : LoopOk s (before ++ sent) [] [] c' ⟨true, true, some 0, none⟩ rest ↔
          before ++ sent ++ [] <+: pendingBytes s ∧ Quiet rest := ih hc'
        (by decide : 0 < netBufferSize) (.inl rfl) (by rwa [List.append_nil])
        (by rwa [List.append_nil]) (.inl rfl)
      rw [List.append_nil] at hcall
      rw [loopOk_left hl, SentFrom, start, hcall]
      constructor
      · exact fun h => ⟨h.1.inOrder, haccept, h.2.2.2⟩
      · exact fun h => ⟨callOk_part h.1 hshort (.inl rfl),
          callOk_part h.1 hshort (.inr hquiet), h.1, h.2.2⟩
    by_cases hrefuse : r.Refuses
    · obtain _ | e := r
      · exact hrefuse.elim
      obtain ⟨htaken, hok, hconn⟩ := round_refused (c := c) (k := k) next hrefuse
      rw [htaken, List.append_nil, hconn]
      split
      · exact hreturn c _ (.inl hok) hc hstart
      · exact hreturn c.clear _ (.inl hok) hc hstart.clear
    · obtain ⟨htaken, ⟨-, hconn, hl⟩ | ⟨-, hconn, hl⟩⟩ := round_idle (c := c) (k := k)
        next haccept hrefuse
      · rw [htaken, List.append_nil, hconn, hl]
        rcases hnext with rfl | rfl
        · exact hreturn c.clear _ (.inr rfl) hc hstart.clear
        · exact hloop c.clear hc hplace.clear hstart.clear
      · rw [htaken, List.append_nil, hconn, hl]
        exact hloop c hc hplace hstart

end Stuck

/-! A part of the string is sent. -/

def SendResult.count : SendResult → ℕ
  | .took n => n
  | .failed _ => 0

/-- At most `j` bytes are accepted, and none after a refusal. -/
def Within (j : ℕ) (results : List SendResult) : Prop :=
  ∃ mid post, results = mid ++ post ∧ (∀ r ∈ mid, ¬ r.Refuses) ∧
    (mid.map SendResult.count).sum ≤ j ∧ Quiet post

theorem within_of_quiet (j : ℕ) {results : List SendResult} (h : Quiet results) :
    Within j results :=
  ⟨[], results, rfl, List.forall_mem_nil _, Nat.zero_le j, h⟩

theorem SendResult.Refuses.not_accepts {r : SendResult} (h : r.Refuses) : ¬ r.Accepts := by
  cases r with
  | took n => exact h.elim
  | failed e => exact not_false

theorem count_of_not_accepts {r : SendResult} (h : ¬ r.Accepts) : r.count = 0 := by
  cases r with
  | took n => exact Nat.eq_zero_of_not_pos h
  | failed e => rfl

theorem within_cons_refuses {j : ℕ} {r : SendResult} {rest : List SendResult} (hr : r.Refuses) :
    Within j (r :: rest) ↔ Quiet rest := by
  constructor
  · rintro ⟨mid, post, hsplit, hstays, -, hquiet⟩
    cases mid with
    | nil =>
      rw [List.nil_append] at hsplit
      rw [← hsplit] at hquiet
      exact (quiet_cons.mp hquiet).2
    | cons x mid =>
      rw [← (List.cons.inj hsplit).1] at hstays
      exact absurd hr (hstays _ List.mem_cons_self)
  · exact fun h => within_of_quiet j (quiet_cons.mpr ⟨hr.not_accepts, h⟩)

theorem within_cons_stays {j : ℕ} {r : SendResult} {rest : List SendResult} (hr : ¬ r.Refuses) :
    Within j (r :: rest) ↔ r.count ≤ j ∧ Within (j-r.count) rest := by
  constructor
  · rintro ⟨mid, post, hsplit, hstays, hsum, hquiet⟩
    cases mid with
    | nil =>
      rw [List.nil_append] at hsplit
      rw [← hsplit] at hquiet
      obtain ⟨haccept, hrest⟩ := quiet_cons.mp hquiet
      rw [count_of_not_accepts haccept]
      exact ⟨Nat.zero_le j, within_of_quiet _ hrest⟩
    | cons x mid =>
      obtain ⟨rfl, hrest⟩ := List.cons.inj hsplit
      rw [List.map_cons, List.sum_cons] at hsum
      refine ⟨by omega, mid, post, hrest, ?_, by omega, hquiet⟩
      exact fun y hy => hstays y (List.mem_cons_of_mem _ hy)
  · rintro ⟨hle, mid, post, rfl, hstays, hsum, hquiet⟩
    refine ⟨r :: mid, post, rfl, List.forall_mem_cons.mpr ⟨hr, hstays⟩, ?_, hquiet⟩
    rw [List.map_cons, List.sum_cons]
    omega

theorem within_zero {results : List SendResult} : Within 0 results ↔ Quiet results := by
  induction results with
  | nil => exact iff_of_true (within_of_quiet 0 (List.forall_mem_nil _)) (List.forall_mem_nil _)
  | cons r rest ih =>
    by_cases hr : r.Refuses
    · rw [within_cons_refuses hr, quiet_cons, and_iff_right hr.not_accepts]
    · rw [within_cons_stays hr, quiet_cons, Nat.zero_sub, ih]
      refine and_congr_left fun _ => ⟨fun hle haccept => ?_, fun h => ?_⟩
      · obtain n | e := r
        · exact absurd haccept (Nat.not_lt.mpr hle)
        · exact haccept
      · rw [count_of_not_accepts h]

section Parts

variable {s : List UInt8} {sent : List (UInt8 × ℕ)} {used : List SendResult} {c : Connection}
  {k : ℕ}

/-- From place `k` the string and its terminating byte are there to be taken. -/
theorem Connection.Pending.taken (hp : c.Pending s) (hk : k ≤ s.length) {m : ℕ}
    (hm : m ≤ s.length-k+1) :
    ((c.memory.drop k).take m).zipIdx k = ((pendingBytes s).drop k).take m := by
  have hmem : c.memory = (s ++ [0]) ++ (List.replicate (netBufferSize-s.length-1) 0 ++
      (c.partialSendBuffer.toList ++ c.recvBuffer.toList)) := by
    rw [hp.memory, List.append_assoc]
    rfl
  have hlength : (s ++ [0]).length = s.length+1 := by
    rw [List.length_append, List.length_singleton]
  have hdrop : (c.memory.drop k).take m = ((s ++ [0]).drop k).take m := by
    rw [hmem, List.drop_append_of_le_length (by omega), List.take_append_of_le_length]
    rw [List.length_drop]
    omega
  rw [hdrop, zipIdx_drop_take, pendingBytes]

/-- A `send` from place `k` of the string. -/
theorem round_took (hp : c.Pending s) (hk : k ≤ s.length) (next : Option ℕ) {n m : ℕ}
    (hm : min n (s.length-k+1) = m) :
    (pendingBytes s).take k ++ (round c ⟨true, true, some k, next⟩ k (.took n)).2.2 =
        (pendingBytes s).take (k+m) ∧
      (k+m < s.length →
        (round c ⟨true, true, some k, next⟩ k (.took n)).1 = c ∧
        (round c ⟨true, true, some k, next⟩ k (.took n)).2.1 =
          ⟨true, true, some (k+m), some (k+m)⟩) ∧
      (k+m = s.length ∨ k+m = s.length+1 ∧ ZeroBehind c s →
        (round c ⟨true, true, some k, next⟩ k (.took n)).1 = c.clear ∧
        (round c ⟨true, true, some k, next⟩ k (.took n)).2.1 = ⟨true, true, next, next⟩) ∧
      (k+m = s.length+1 → ¬ ZeroBehind c s →
        (round c ⟨true, true, some k, next⟩ k (.took n)).1 = c ∧
        (round c ⟨true, true, some k, next⟩ k (.took n)).2.1 =
          ⟨true, true, some (k+m), some (k+m)⟩) := by
  have hlen : min n (strlen (c.memory.drop k)+1) = m := by rw [hp.strlen_drop hk, hm]
  refine ⟨?_, fun hmore => ?_, fun hempty => ?_, fun hlast hbehind => ?_⟩
  · rw [round_taken, hlen, hp.taken hk (by omega), ← List.take_add]
  · apply round_took_more hlen
    rw [hp.strlen_drop hmore.le]
    omega
  · apply round_took_empty hlen
    rcases hempty with hall | ⟨hall, hzero⟩
    · rw [hp.strlen_drop hall.le]
      omega
    · rw [hall]
      exact hp.strlen_behind.mpr hzero
  · apply round_took_more hlen
    rw [hlast]
    exact fun h => hbehind (hp.strlen_behind.mp h)

/-- Everything is sent, and the call goes on. -/
theorem not_loopOk_of_all (hc : c.socket ≠ -1) {j : ℕ} {next : Option ℕ}
    {results : List SendResult} :
    ¬ LoopOk s [] ((pendingBytes s).take (s.length+1)) used c ⟨true, true, some j, next⟩
      results := by
  intro h
  have hcall := (loopAt_nil hc _ _ _).mp (h [] List.nil_prefix)
  have hall : (pendingBytes s).take (s.length+1) = pendingBytes s := by
    rw [← pendingBytes_length, List.take_length]
  have hne : pendingBytes s ≠ [] := by
    apply List.ne_nil_of_length_pos
    rw [pendingBytes_length]
    exact Nat.succ_pos _
  have hstatus := (hcall.ends (by rw [hall]; exact hne) (by rw [hall]; exact List.prefix_rfl)).1
  cases hstatus

theorem take_pendingBytes_length (hk : k ≤ s.length) : ((pendingBytes s).take k).length = k := by
  rw [List.length_take, pendingBytes_length]
  omega

theorem callOk_take (hk : k ≤ s.length) {status : Option Bool}
    (hstatus : status = none ∨ ∃ r ∈ used, ¬ r.Accepts) :
    CallOk s [] status c ((pendingBytes s).take k) used := by
  refine callOk_part ?_ (.inr ?_) hstatus
  · exact List.take_prefix _ _
  · rw [List.nil_append, take_pendingBytes_length hk]
    exact hk

/-- A call that has sent a part of the string is refused: the next call starts from the first byte
again. -/
theorem part_refused (hc : c.socket ≠ -1) (hp : c.Pending s) (hpos : 0 < k) (hk : k ≤ s.length)
    {e : ℕ} (hrefuse : (SendResult.failed e).Refuses) {rest : List SendResult} :
    LoopOk s [] ((pendingBytes s).take k ++
        (round c ⟨true, true, some k, some k⟩ k (.failed e)).2.2) (used ++ [.failed e])
        (round c ⟨true, true, some k, some k⟩ k (.failed e)).1
        (round c ⟨true, true, some k, some k⟩ k (.failed e)).2.1 rest ↔ Quiet rest := by
  obtain ⟨htaken, hok, hconn⟩ := round_refused (c := c) (k := k) (some k) hrefuse
  have hcall {c' : Connection} {status : Option Bool} :
      CallOk s [] status c' ((pendingBytes s).take k) (used ++ [.failed e]) :=
    callOk_take hk (.inr ⟨.failed e, List.mem_append_right used (List.mem_singleton_self _),
      hrefuse.not_accepts⟩)
  have hlost (c' : Connection) : Lost s c' ((pendingBytes s).take k ++ []).length 0 := by
    rw [List.append_nil, take_pendingBytes_length hk]
    exact .inl hpos.ne'
  have hstuck (c' : Connection) (hc' : c'.socket ≠ -1) :
      SentFrom s ((pendingBytes s).take k) c' rest ↔ Quiet rest := by
    rw [SentFrom, start, stuck_iff hc' hp.noNul (by decide) (.inl rfl) (hlost c') (hlost c')
      (.inl rfl), List.append_nil]
    exact and_iff_right (List.take_prefix _ _)
  rw [htaken, List.append_nil, loopOk_left (.inl hok), and_iff_right hcall, hconn, List.nil_append]
  -- the string is in the buffer, or `memset` has cleared it
  split
  · exact hstuck c hc
  · exact hstuck c.clear hc

/-- A call that has sent a part of the string sends the rest: without the terminating byte the loop
goes on at the old place of the cleared buffer, and with it the call is not over. -/
theorem part_took_rest (hc : c.socket ≠ -1) (hp : c.Pending s) (hpos : 0 < k) (hk : k < s.length)
    {n : ℕ} (hn : s.length-k ≤ n) {rest : List SendResult} :
    LoopOk s [] ((pendingBytes s).take k ++
        (round c ⟨true, true, some k, some k⟩ k (.took n)).2.2) (used ++ [.took n])
        (round c ⟨true, true, some k, some k⟩ k (.took n)).1
        (round c ⟨true, true, some k, some k⟩ k (.took n)).2.1 rest ↔
      n = s.length-k ∧ Quiet rest := by
  have hfits := hp.fits
  obtain ⟨m, hm⟩ : ∃ m, min n (s.length-k+1) = m := ⟨_, rfl⟩
  obtain ⟨htaken, -, hempty, hlast⟩ := round_took hp hk.le (some k) hm
  rw [htaken]
  rcases Nat.lt_or_ge (s.length-k) n with hgt | hle
  · have hall : k+m = s.length+1 := by omega
    refine iff_of_false ?_ fun h => by omega
    rw [hall]
    by_cases hzero : ZeroBehind c s
    · obtain ⟨hconn, hl⟩ := hempty (.inr ⟨hall, hzero⟩)
      rw [hconn, hl]
      exact not_loopOk_of_all (c := c.clear) hc
    · obtain ⟨hconn, hl⟩ := hlast hall hzero
      rw [hconn, hl]
      exact not_loopOk_of_all hc
  · have hall : k+m = s.length := by omega
    obtain ⟨hconn, hl⟩ := hempty (.inl hall)
    have hlost {j : ℕ} (hj : s.length ≠ j) :
        Lost s c.clear ([] ++ (pendingBytes s).take s.length).length j := by
      rw [List.nil_append, take_pendingBytes_length le_rfl]
      exact .inl hj
    have hshort : ([] ++ (pendingBytes s).take s.length).length ≤ s.length := by
      rw [List.nil_append, take_pendingBytes_length le_rfl]
    rw [hconn, hl, hall, and_iff_right (by omega : n = s.length-k),
      stuck_iff (c := c.clear) hc hp.noNul (by omega) (.inr rfl) (hlost hk.ne')
        (hlost (hpos.trans hk).ne') (.inr hshort)]
    exact and_iff_right (List.take_prefix _ _)

/-- A call that has sent a part of the string. -/
theorem part_iff (hc : c.socket ≠ -1) (hp : c.Pending s) (hpos : 0 < k) (hk : k < s.length)
    {results : List SendResult} :
    LoopOk s [] ((pendingBytes s).take k) used c ⟨true, true, some k, some k⟩ results ↔
      Within (s.length-k) results := by
  induction results generalizing k used with
  | nil =>
    rw [loopOk_nil hc]
    exact iff_of_true (callOk_take hk.le (.inl rfl)) (within_of_quiet _ (List.forall_mem_nil _))
  | cons r rest ih =>
    rw [loopOk_cons hc, and_iff_right (callOk_take hk.le (.inl rfl))]
    by_cases hrefuse : r.Refuses
    · obtain _ | e := r
      · exact hrefuse.elim
      rw [within_cons_refuses hrefuse]
      exact part_refused hc hp hpos hk.le hrefuse
    rw [within_cons_stays hrefuse]
    by_cases haccept : r.Accepts
    · obtain n | e := r
      · have hn : 0 < n := haccept
        rw [SendResult.count]
        rcases Nat.lt_or_ge n (s.length-k) with hlt | hge
        · -- another part
          have hm : min n (s.length-k+1) = n := by omega
          obtain ⟨htaken, hmore, -, -⟩ := round_took hp hk.le (some k) hm
          obtain ⟨hconn, hl⟩ := hmore (by omega)
          rw [htaken, hconn, hl]
          refine (ih (by omega) (by omega)).trans ?_
          rw [Nat.sub_add_eq]
          exact (and_iff_right hlt.le).symm
        · rw [part_took_rest hc hp hpos hk hge, Nat.sub_eq_zero_of_le hge, within_zero]
          exact and_congr_left' ⟨fun h => h.le, fun h => le_antisymm h hge⟩
      · exact haccept.elim
    · -- nothing is taken, and the loop goes on at the same place
      have hmore : strlen (c.memory.drop k) ≠ 0 := by
        rw [hp.strlen_drop hk.le]
        omega
      obtain ⟨htaken, ⟨hempty, -⟩ | ⟨-, hconn, hl⟩⟩ := round_idle (c := c) (k := k)
        (some k) haccept hrefuse
      · exact absurd hempty hmore
      · rw [htaken, List.append_nil, hconn, hl, count_of_not_accepts haccept, Nat.sub_zero]
        refine (ih hpos hk).trans ?_
        exact (and_iff_right (Nat.zero_le _)).symm

end Parts

/-! When the string is sent once. -/

/-- The next `send` is the first of its call; `first` if it is so before the results `pre`. -/
def AtStart (s : List UInt8) (first : Bool) (pre : List SendResult) : Prop :=
  s = [] ∨ pre.getLast? = some (.failed EWOULDBLOCK) ∨ (first = true ∧ pre = [])

/-- Nothing is accepted; or no error has cleared the buffer when the first bytes are, and they are
everything, in the first `send` of a call, with nothing accepted later; or they are a part of the
string, and what is accepted later belongs to the same call and to the string. -/
def Harmless (s : List UInt8) (c : Connection) (first : Bool) (results : List SendResult) : Prop :=
  Quiet results ∨ ∃ pre n post, results = pre ++ .took n :: post ∧ 0 < n ∧
    (∀ r ∈ pre, ¬ r.Accepts ∧ (s ≠ [] → r.Refuses → r = .failed EWOULDBLOCK)) ∧
    ((AtStart s first pre ∧ s.length < n ∧ ZeroBehind c s ∧ Quiet post) ∨
      (n ≤ s.length ∧ ¬ (AtStart s first pre ∧ n = s.length) ∧ Within (s.length-n) post))

section Harmless

variable {s : List UInt8} {c : Connection} {first : Bool} {r : SendResult}
  {rest : List SendResult}

theorem atStart_cons (first : Bool) {pre : List SendResult} :
    AtStart s first (r :: pre) ↔
      AtStart s (decide (s = [] ∨ r = .failed EWOULDBLOCK)) pre := by
  unfold AtStart
  by_cases hs : s = []
  · exact iff_of_true (.inl hs) (.inl hs)
  · cases pre <;> simp [hs]

/-- The first `send` accepts something. -/
theorem harmless_cons_took {n : ℕ} (hn : 0 < n) :
    Harmless s c first (.took n :: rest) ↔
      (AtStart s first [] ∧ s.length < n ∧ ZeroBehind c s ∧ Quiet rest) ∨
        (n ≤ s.length ∧ ¬ (AtStart s first [] ∧ n = s.length) ∧ Within (s.length-n) rest) := by
  constructor
  · rintro (hquiet | ⟨pre, m, post, hsplit, -, hpre, hpost⟩)
    · exact absurd hn (quiet_cons.mp hquiet).1
    · cases pre with
      | nil =>
        obtain ⟨htook, rfl⟩ := List.cons.inj hsplit
        obtain rfl := SendResult.took.inj htook
        exact hpost
      | cons x pre =>
        rw [← (List.cons.inj hsplit).1] at hpre
        exact absurd hn (hpre _ List.mem_cons_self).1
  · exact fun h => .inr ⟨[], n, rest, rfl, hn, List.forall_mem_nil _, h⟩

/-- The first `send` accepts nothing, and the buffer is not cleared. -/
theorem harmless_cons_quiet (hr : ¬ r.Accepts)
    (hkept : s ≠ [] → r.Refuses → r = .failed EWOULDBLOCK) :
    Harmless s c first (r :: rest) ↔
      Harmless s c (decide (s = [] ∨ r = .failed EWOULDBLOCK)) rest := by
  constructor
  · rintro (hquiet | ⟨pre, m, post, hsplit, hm, hpre, hpost⟩)
    · exact .inl (quiet_cons.mp hquiet).2
    · cases pre with
      | nil =>
        rw [(List.cons.inj hsplit).1] at hr
        exact absurd hm hr
      | cons x pre =>
        obtain ⟨rfl, hrest⟩ := List.cons.inj hsplit
        rw [atStart_cons first] at hpost
        exact .inr ⟨pre, m, post, hrest, hm, (List.forall_mem_cons.mp hpre).2, hpost⟩
  · rintro (hquiet | ⟨pre, m, post, rfl, hm, hpre, hpost⟩)
    · exact .inl (quiet_cons.mpr ⟨hr, hquiet⟩)
    · rw [← atStart_cons first] at hpost
      exact .inr ⟨r :: pre, m, post, rfl, hm, List.forall_mem_cons.mpr ⟨⟨hr, hkept⟩, hpre⟩, hpost⟩

/-- An error clears the buffer. -/
theorem harmless_cons_error {e : ℕ} (hs : s ≠ []) (he : e ≠ 0) (hblock : e ≠ EWOULDBLOCK) :
    Harmless s c first (.failed e :: rest) ↔ Quiet rest := by
  constructor
  · rintro (hquiet | ⟨pre, m, post, hsplit, hm, hpre, -⟩)
    · exact (quiet_cons.mp hquiet).2
    · cases pre with
      | nil => cases (List.cons.inj hsplit).1
      | cons x pre =>
        rw [← (List.cons.inj hsplit).1] at hpre
        exact absurd (SendResult.failed.inj ((hpre _ List.mem_cons_self).2 hs he)) hblock
  · exact fun h => .inl (quiet_cons.mpr ⟨not_false, h⟩)

/-- Everything was taken by the first `send` of a call, which returned. -/
theorem callOk_all {used : List SendResult} (hc : c.Pending []) :
    CallOk s [] (some true) c ((pendingBytes s).take (s.length+1)) used := by
  have hall : (pendingBytes s).take (s.length+1) = pendingBytes s := by
    rw [← pendingBytes_length, List.take_length]
  rw [hall]
  exact ⟨List.prefix_rfl, fun _ _ _ => ⟨rfl, rfl, hc⟩, fun _ _ => ⟨rfl, hc⟩⟩

/-- A call that returned after its first `send` took the string without its terminating byte. -/
theorem not_callOk_unterminated {n : ℕ} (hn : 0 < n) :
    ¬ CallOk s [] (some true) c ((pendingBytes s).take s.length) [.took n] := by
  intro h
  have hall := (h.complete (List.cons_ne_nil _ _)
    (List.forall_mem_cons.mpr ⟨hn, List.forall_mem_nil _⟩) (Option.some_ne_none _)).2.1
  have hlength := congrArg List.length hall
  rw [List.nil_append, List.length_take, pendingBytes_length] at hlength
  omega

/-- The variables before the first byte is accepted: nothing was tried in this call, or some `send`
took nothing. -/
def Waiting (s : List UInt8) (first : Bool) (next : Option ℕ) (used : List SendResult) : Prop :=
  (first = true ∧ next = none ∧ used = []) ∨
    (first = false ∧ next = some 0 ∧ s ≠ [] ∧ ∃ r ∈ used, ¬ r.Accepts)

theorem Waiting.atStart {next : Option ℕ} {used : List SendResult}
    (h : Waiting s first next used) : AtStart s first [] ↔ first = true := by
  rcases h with ⟨rfl, -, -⟩ | ⟨rfl, -, hs, -⟩
  · exact iff_of_true (.inr (.inr ⟨rfl, rfl⟩)) rfl
  · simp [AtStart, hs]

/-- The first bytes are the string without its terminating byte: the first `send` of a call ends the
call, and a later one leaves the loop at the start of the cleared buffer. -/
theorem fresh_took_string (hc : c.socket ≠ -1) (hno : 0 ∉ s) {next : Option ℕ}
    {used : List SendResult} (hw : Waiting s first next used) (hpos : 0 < s.length) :
    LoopOk s [] ((pendingBytes s).take s.length) (used ++ [.took s.length]) c.clear
        ⟨true, true, next, next⟩ rest ↔ first = false ∧ Quiet rest := by
  rcases hw with ⟨rfl, rfl, rfl⟩ | ⟨rfl, rfl, -, -⟩
  · rw [loopOk_left (.inr rfl)]
    exact iff_of_false (fun h => not_callOk_unterminated hpos h.1) fun h => by cases h.1
  · have hlength : ([] ++ (pendingBytes s).take s.length).length = s.length := by
      rw [List.nil_append, take_pendingBytes_length le_rfl]
    have hlost : Lost s c.clear ([] ++ (pendingBytes s).take s.length).length 0 := by
      rw [hlength]
      exact .inl hpos.ne'
    rw [and_iff_right rfl, stuck_iff (c := c.clear) hc hno (by decide) (.inr rfl) hlost hlost
      (.inr hlength.le)]
    exact and_iff_right (List.take_prefix _ _)

/-- The first bytes are everything: the first `send` of a call ends the call. -/
theorem fresh_took_all (hc : c.socket ≠ -1) (hno : 0 ∉ s) {next : Option ℕ}
    {used : List SendResult} (hw : Waiting s first next used) {n : ℕ} :
    LoopOk s [] ((pendingBytes s).take (s.length+1)) (used ++ [.took n]) c.clear
        ⟨true, true, next, next⟩ rest ↔ first = true ∧ Quiet rest := by
  rcases hw with ⟨rfl, rfl, rfl⟩ | ⟨rfl, rfl, -, -⟩
  · have hlost : Lost s c.clear ((pendingBytes s).take (s.length+1) ++ []).length 0 := by
      rw [List.append_nil, List.length_take, pendingBytes_length]
      exact .inl (by omega)
    rw [loopOk_left (.inr rfl), and_iff_right (callOk_all c.clear_pending), SentFrom, start,
      List.nil_append, stuck_iff (c := c.clear) hc hno (by decide) (.inl rfl) hlost hlost
        (.inl rfl), List.append_nil]
    exact and_congr_left' (iff_of_true (List.take_prefix _ _) rfl)
  · exact iff_of_false (not_loopOk_of_all (c := c.clear) hc) fun h => by cases h.1

/-- The first bytes that are accepted, before anything was accepted. -/
theorem fresh_took (hc : c.socket ≠ -1) (hp : c.Pending s) {next : Option ℕ}
    {used : List SendResult} (hw : Waiting s first next used) {n : ℕ} (hn : 0 < n) :
    LoopOk s [] ((round c ⟨true, true, some 0, next⟩ 0 (.took n)).2.2) (used ++ [.took n])
        (round c ⟨true, true, some 0, next⟩ 0 (.took n)).1
        (round c ⟨true, true, some 0, next⟩ 0 (.took n)).2.1 rest ↔
      Harmless s c first (.took n :: rest) := by
  obtain ⟨m, hm⟩ : ∃ m, min n (s.length-0+1) = m := ⟨_, rfl⟩
  obtain ⟨htaken, hmore, hempty, hlast⟩ := round_took hp (Nat.zero_le _) next hm
  rw [List.take_zero, List.nil_append, Nat.zero_add] at htaken
  rw [Nat.zero_add] at hmore hempty hlast
  rw [htaken, harmless_cons_took hn, hw.atStart]
  rcases Nat.lt_trichotomy n s.length with hlt | rfl | hgt
  · -- a part
    obtain rfl : m = n := by omega
    obtain ⟨hconn, hl⟩ := hmore hlt
    rw [hconn, hl]
    refine (part_iff hc hp hn hlt).trans ?_
    constructor
    · exact fun h => .inr ⟨hlt.le, fun heq => hlt.ne heq.2, h⟩
    · rintro (⟨-, hbig, -⟩ | ⟨-, -, h⟩)
      · exact absurd hbig hlt.not_gt
      · exact h
  · -- the string without its terminating byte
    obtain rfl : m = s.length := by omega
    obtain ⟨hconn, hl⟩ := hempty (.inl rfl)
    rw [hconn, hl, Nat.sub_self, within_zero, fresh_took_string hc hp.noNul hw hn]
    constructor
    · exact fun h => .inr ⟨le_rfl, fun hfirst => by simp [h.1] at hfirst, h.2⟩
    · rintro (⟨-, hbig, -⟩ | ⟨-, hfirst, h⟩)
      · exact absurd hbig (lt_irrefl _)
      · exact ⟨Bool.eq_false_iff.mpr fun htrue => hfirst ⟨htrue, rfl⟩, h⟩
  · -- everything
    obtain rfl : m = s.length+1 := by omega
    have hbig : ¬ n ≤ s.length := hgt.not_ge
    by_cases hzero : ZeroBehind c s
    · obtain ⟨hconn, hl⟩ := hempty (.inr ⟨rfl, hzero⟩)
      rw [hconn, hl, fresh_took_all hc hp.noNul hw]
      constructor
      · exact fun h => .inl ⟨h.1, hgt, hzero, h.2⟩
      · rintro (⟨hfirst, -, -, h⟩ | ⟨hle, -⟩)
        · exact ⟨hfirst, h⟩
        · exact absurd hle hbig
    · -- a byte that is not zero stands behind, and the loop goes on there
      obtain ⟨hconn, hl⟩ := hlast rfl hzero
      rw [hconn, hl]
      refine iff_of_false (not_loopOk_of_all hc) ?_
      rintro (⟨-, -, h, -⟩ | ⟨hle, -⟩)
      · exact hzero h
      · exact hbig hle

/-- All goes well from a call's start, when nothing was accepted before, exactly when the results
are harmless. -/
theorem fresh_iff (hc : c.socket ≠ -1) (hp : c.Pending s) {next : Option ℕ}
    {used : List SendResult} (hw : Waiting s first next used) {results : List SendResult} :
    LoopOk s [] [] used c ⟨true, true, some 0, next⟩ results ↔ Harmless s c first results := by
  have hnone {status : Option Bool} {c' : Connection} {used' : List SendResult}
      (hstatus : status = none ∨ ∃ r ∈ used', ¬ r.Accepts) : CallOk s [] status c' [] used' :=
    callOk_part List.nil_prefix (.inl rfl) hstatus
  induction results generalizing c first next used with
  | nil =>
    rw [loopOk_nil hc]
    exact iff_of_true (hnone (.inl rfl)) (.inl (List.forall_mem_nil _))
  | cons r rest ih =>
    rw [loopOk_cons hc, and_iff_right (hnone (.inl rfl)), List.nil_append]
    by_cases haccept : r.Accepts
    · obtain n | e := r
      · exact fresh_took hc hp hw haccept
      · exact haccept.elim
    have hquiet : ∃ x ∈ used ++ [r], ¬ x.Accepts :=
      ⟨r, List.mem_append_right _ (List.mem_singleton_self r), haccept⟩
    have hempty : strlen (c.memory.drop 0) = s.length := hp.strlen_drop (Nat.zero_le _)
    -- the next call starts, with the string in the buffer
    have hagain (c' : Connection) (hc' : c'.socket ≠ -1) (hp' : c'.Pending s)
        (hbehind : ZeroBehind c' s ↔ ZeroBehind c s)
        (hkept : s = [] ∨ r = .failed EWOULDBLOCK) :
        SentFrom s [] c' rest ↔ Harmless s c first (r :: rest) := by
      have hfirst : Waiting s (decide (s = [] ∨ r = .failed EWOULDBLOCK)) none [] :=
        .inl ⟨decide_eq_true hkept, rfl, rfl⟩
      rw [harmless_cons_quiet haccept fun hs _ => hkept.resolve_left hs]
      refine (ih hc' hp' hfirst).trans ?_
      rw [Harmless, Harmless, hbehind]
    by_cases hrefuse : r.Refuses
    · obtain _ | e := r
      · exact hrefuse.elim
      obtain ⟨htaken, hok, hconn⟩ := round_refused (c := c) (k := 0) next hrefuse
      rw [htaken, loopOk_left (.inl hok), and_iff_right (hnone (.inr hquiet)), hconn, hempty,
        List.append_nil]
      by_cases hs : s = []
      · rw [if_neg fun h => h.1 (congrArg List.length hs)]
        exact hagain c.clear hc (hs ▸ c.clear_pending) Iff.rfl (.inl hs)
      · have hlength : s.length ≠ 0 := fun h => hs (List.length_eq_zero_iff.mp h)
        by_cases hblock : e = EWOULDBLOCK
        · rw [if_pos ⟨hlength, hblock⟩]
          exact hagain c hc hp Iff.rfl (.inr (congrArg _ hblock))
        · -- the buffer is cleared, and a zero byte is sent in place of the string
          have hlost : Lost s c.clear ([] ++ [] : List (UInt8 × ℕ)).length 0 := .inr ⟨rfl, rfl, hs⟩
          rw [if_neg fun h => hblock h.2, harmless_cons_error hs hrefuse hblock, SentFrom, start,
            stuck_iff (c := c.clear) hc hp.noNul (by decide) (.inl rfl) hlost hlost (.inl rfl)]
          exact and_iff_right List.nil_prefix
    · obtain ⟨htaken, ⟨hzero, hconn, hl⟩ | ⟨hmore, hconn, hl⟩⟩ := round_idle (c := c) (k := 0)
        next haccept hrefuse
      · have hs : s = [] := List.length_eq_zero_iff.mp (hempty ▸ hzero)
        obtain ⟨-, rfl, -⟩ | ⟨-, -, hne, -⟩ := hw
        · rw [htaken, hconn, hl, loopOk_left (.inr rfl), and_iff_right (hnone (.inr hquiet)),
            List.append_nil]
          exact hagain c.clear hc (hs ▸ c.clear_pending) Iff.rfl (.inl hs)
        · exact absurd hs hne
      · have hs : s ≠ [] := fun h => hmore (hempty.trans (congrArg List.length h))
        have hfirst : Waiting s (decide (s = [] ∨ r = .failed EWOULDBLOCK)) (some 0)
            (used ++ [r]) := by
          refine .inr ⟨decide_eq_false ?_, rfl, hs, hquiet⟩
          rintro (h | rfl)
          · exact hs h
          · exact hrefuse (show EWOULDBLOCK ≠ 0 by decide)
        rw [htaken, hconn, hl, harmless_cons_quiet haccept fun _ h => absurd h hrefuse]
        exact ih hc hp hfirst

end Harmless

/-- A call on a closed socket sends nothing. -/
theorem transmitPending_closed {c : Connection} (hc : c.socket = -1) (results : List SendResult) :
    (transmitPending c results).status = some false ∧ (transmitPending c results).sent = [] ∧
      (transmitPending c results).used = [] ∧
      (transmitPending c results).conn.socket = -1 := by
  have hloop : transmitPending c results =
      ⟨some (transmitBody c start 0 (-1) EINVAL).2.status, (transmitBody c start 0 (-1) EINVAL).1,
        [], [], results⟩ := by
    rw [transmitPending, transmitLoop]
    simp only [if_pos hc]
    rfl
  have hneg : (-1 : ℤ) < 0 ∧ EINVAL ≠ 0 := by decide
  have hblock : EINVAL ≠ EWOULDBLOCK := by decide
  by_cases hempty : strlen (c.memory.drop (moved 0 (-1))) = 0
  · rw [hloop, transmitBody_empty hempty, if_pos hneg]
    exact ⟨rfl, rfl, rfl, hc⟩
  · rw [hloop, transmitBody_more hempty, if_pos hneg, if_neg hblock]
    exact ⟨rfl, rfl, rfl, hc⟩

theorem transmitPendings_closed {n : ℕ} {c : Connection} {results : List SendResult} {a : After}
    (hc : c.socket = -1) (h : transmitPendings n c results = some a) :
    a.sent = [] ∧ a.conn.socket = -1 := by
  induction n generalizing c results a with
  | zero =>
    obtain rfl := Option.some.inj h
    exact ⟨rfl, hc⟩
  | succ n ih =>
    obtain ⟨hstatus, hsent, -, hsocket⟩ := transmitPending_closed hc results
    simp only [transmitPendings, hstatus] at h
    obtain ⟨a', ha', rfl⟩ := Option.map_eq_some_iff.mp h
    obtain ⟨hrest, hend⟩ := ih hsocket ha'
    refine ⟨?_, hend⟩
    change (transmitPending c results).sent ++ a'.sent = []
    rw [hsent, hrest, List.append_nil]

theorem sentOnce_closed {c : Connection} (hc : c.socket = -1) (s : List UInt8)
    (results : List SendResult) : SentOnce s c results := by
  intro moment _ n a ha
  obtain ⟨hsent, hsocket⟩ := transmitPendings_closed hc ha
  obtain ⟨-, hcall, hused, -⟩ := transmitPending_closed hsocket a.rest
  change CallOk s ([] ++ a.sent) (transmitPending a.conn a.rest).status _ _ _
  rw [hsent, hcall, hused]
  exact ⟨List.nil_prefix, fun hne => absurd rfl hne, fun hne => absurd rfl hne⟩

/-- On an open socket. -/
theorem sentOnce_open {c : Connection} {s : List UInt8} (hc : c.socket ≠ -1) (hp : c.Pending s)
    (results : List SendResult) : SentOnce s c results ↔ Harmless s c true results := by
  rw [← fresh_iff hc hp (.inl ⟨rfl, rfl, rfl⟩)]
  exact forall₂_congr fun _ _ => sentAt_iff

/-- However `send` answers over any number of calls, the string is sent once exactly when the socket
is closed or the answers are harmless. -/
theorem sentOnce_iff (s : List UInt8) (c : Connection) (hp : c.Pending s)
    (results : List SendResult) :
    SentOnce s c results ↔ c.socket = -1 ∨ Harmless s c true results := by
  by_cases hc : c.socket = -1
  · exact iff_of_true (sentOnce_closed hc s results) (.inl hc)
  · rw [or_iff_right hc]
    exact sentOnce_open hc hp results

/-- A connection whose send buffer holds `s`. -/
def Connection.holding (s : List UInt8) (hs : s.length ≤ netBufferSize) : Connection where
  socket := 5
  pendingSendBuffer := ⟨(s ++ List.replicate (netBufferSize-s.length) 0).toArray, by
    rw [List.size_toArray, List.length_append, List.length_replicate]
    omega⟩
  partialSendBuffer := Vector.replicate netBufferSize 0
  recvBuffer := Vector.replicate netBufferSize 0

theorem Connection.holding_pending {s : List UInt8} (hs : s.length < netBufferSize)
    (hno : 0 ∉ s) : (Connection.holding s hs.le).Pending s :=
  ⟨rfl, hno, hs⟩

theorem sentOnce_blocked_first :
    SentOnce [97, 98, 99] (Connection.holding [97, 98, 99] (by decide))
      [.failed EWOULDBLOCK, .took 4, .failed EWOULDBLOCK] := by
  apply (sentOnce_iff _ _ (Connection.holding_pending (by decide) (by decide)) _).mpr
  refine .inr (.inr ⟨[.failed EWOULDBLOCK], 4, [.failed EWOULDBLOCK], rfl, by decide, ?_, .inl ?_⟩)
  · exact List.forall_mem_singleton.mpr ⟨by decide, fun _ _ => rfl⟩
  · refine ⟨.inr (.inl rfl), by decide, .inl (by decide), ?_⟩
    exact List.forall_mem_singleton.mpr (by decide)

/-- Two bytes are sent, the socket is full, and the next call sends them again. -/
theorem transmitPending_sends_twice :
    ¬ ∀ (s : List UInt8) (c : Connection) (results : List SendResult), c.Pending s →
      SentOnce s c results := by
  intro hall
  have hp : (Connection.holding [97, 98, 99] (by decide)).Pending [97, 98, 99] :=
    Connection.holding_pending (by decide) (by decide)
  have honce := (sentOnce_open (by decide) hp _).mp
    (hall _ _ [.took 2, .failed EWOULDBLOCK, .took 4] hp)
  rw [harmless_cons_took (by decide)] at honce
  rcases honce with ⟨-, hbig, -⟩ | ⟨-, -, hwithin⟩
  · exact absurd hbig (by decide)
  · have hrefuse : (SendResult.failed EWOULDBLOCK).Refuses := (by decide : EWOULDBLOCK ≠ 0)
    rw [within_cons_refuses hrefuse] at hwithin
    exact hwithin (.took 4) (List.mem_singleton_self _) (by decide)

end LinuxPrograms.SelectServer
