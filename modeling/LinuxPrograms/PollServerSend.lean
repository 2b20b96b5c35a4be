import LinuxPrograms.PollServerTransmit

/-! When `TransmitPending` returns. Its loop ends by the count of the bytes alone, so what decides
is whether `send` goes on taking some, whatever the errors between. -/
namespace LinuxPrograms.PollServer
open Lib

/-- The bytes a call of `send` takes. -/
def SendRet.taken : SendRet → ℕ
  | .count n => n
  | .again => 0
  | .error => 0

/-- The bytes the calls of `send` take. -/
def taken (sends : List SendRet) : ℕ := (sends.map SendRet.taken).sum

/-- As long as bytes remain, `send` takes no more than it is given. -/
def TakesAtMost (bytesToBeSend : ℕ) (sends : ℕ → SendRet) : Prop :=
  ∀ n, taken (view sends n) < bytesToBeSend → taken (view sends (n+1)) ≤ bytesToBeSend

/-- From some call on, with bytes remaining, every call fails. -/
def FailsForever (bytesToBeSend : ℕ) (sends : ℕ → SendRet) : Prop :=
  ∃ k, taken (view sends k) < bytesToBeSend ∧ ∀ m, k ≤ m → (sends m).taken = 0

/-- What `TransmitPending` is to send for slot `i`: the string and the byte that ends it. -/
def bytesPending (s : Server) (i : ℕ) : ℕ := strlen (s.pClients i).pendingSendBuffer+1

/-- `TransmitPending` returns after finitely many calls of `send`, the mutex released, and with
`false` when `send` fails for ever. -/
def Returns (s : Server) (i : ℕ) (sends : ℕ → SendRet) : Prop :=
  ∃ n status t, transmitPending s i (view sends n) = some (status, t) ∧
    (FailsForever (bytesPending s i) sends → status = false)

theorem taken_cons (ret : SendRet) (sends : List SendRet) :
    taken (ret :: sends) = ret.taken+taken sends := by
  rw [taken, List.map_cons, List.sum_cons]
  rfl

theorem taken_view_succ (sends : ℕ → SendRet) (n : ℕ) :
    taken (view sends (n+1)) = taken (view sends n)+(sends n).taken := by
  rw [taken, view_succ, List.map_append, List.sum_append]
  rfl

/-- One call of `send` with bytes remaining. -/
theorem sendLoop_cons (ret : SendRet) (sends : List SendRet) (bytesToBeSend retry : ℕ)
    (status : Bool) (hbytes : 0 < bytesToBeSend) :
    ∃ retry' status', sendLoop (ret :: sends) bytesToBeSend retry status =
      if ret.taken ≤ bytesToBeSend then sendLoop sends (bytesToBeSend-ret.taken) retry' status'
      else none := by
  obtain ⟨b, rfl⟩ := Nat.exists_eq_add_of_lt hbytes
  rw [Nat.zero_add]
  cases ret with
  | count n =>
    cases n with
    | zero => exact ⟨retry, false, (if_pos (Nat.zero_le _)).symm⟩
    | succ n =>
      refine ⟨retry, status, ?_⟩
      simp only [sendLoop, SendRet.taken, Nat.add_le_add_iff_right, Nat.add_sub_add_right]
  | again => exact ⟨retry+1, _, (if_pos (Nat.zero_le _)).symm⟩
  | error => exact ⟨retry, false, (if_pos (Nat.zero_le _)).symm⟩

/-- The loop has ended exactly when some of the first calls took exactly the bytes there were. -/
theorem sendLoop_isSome_iff {sends : List SendRet} {bytesToBeSend retry : ℕ} {status : Bool} :
    (sendLoop sends bytesToBeSend retry status).isSome = true ↔
      ∃ k ≤ sends.length, taken (sends.take k) = bytesToBeSend := by
  induction sends generalizing bytesToBeSend retry status with
  | nil =>
    cases bytesToBeSend with
    | zero => exact iff_of_true rfl ⟨0, Nat.le_refl _, rfl⟩
    | succ b => exact iff_of_false Bool.false_ne_true (by rintro ⟨k, -, hk⟩; simp [taken] at hk)
  | cons ret sends ih =>
    rcases Nat.eq_zero_or_pos bytesToBeSend with rfl | hpos
    · exact iff_of_true rfl ⟨0, Nat.zero_le _, rfl⟩
    · obtain ⟨retry', status', hcall⟩ := sendLoop_cons ret sends bytesToBeSend retry status hpos
      rw [hcall]
      constructor
      · split
        · next hle =>
          intro hended
          obtain ⟨k, hk, htaken⟩ := ih.mp hended
          refine ⟨k+1, Nat.succ_le_succ hk, ?_⟩
          rw [List.take_succ_cons, taken_cons, htaken]
          omega
        · exact fun hended => absurd hended Bool.false_ne_true
      · rintro ⟨k, hk, htaken⟩
        cases k with
        | zero =>
          have hzero : taken ((ret :: sends).take 0) = 0 := rfl
          omega
        | succ k =>
          rw [List.take_succ_cons, taken_cons] at htaken
          rw [if_pos (by omega)]
          exact ih.mpr ⟨k, Nat.le_of_succ_le_succ hk, by omega⟩

theorem take_view {α : Type*} (a : ℕ → α) {k n : ℕ} (h : k ≤ n) : (view a n).take k = view a k := by
  rw [view, ← List.map_take, List.take_range, Nat.min_eq_left h]
  rfl

/-- For an infinite sequence of results. -/
theorem sendLoop_ends_iff {sends : ℕ → SendRet} {bytesToBeSend : ℕ} :
    (∃ n, (sendLoop (view sends n) bytesToBeSend 0 true).isSome = true) ↔
      ∃ n, taken (view sends n) = bytesToBeSend := by
  constructor
  · rintro ⟨n, hended⟩
    obtain ⟨k, hk, htaken⟩ := sendLoop_isSome_iff.mp hended
    rw [view_length] at hk
    exact ⟨k, take_view sends hk ▸ htaken⟩
  · rintro ⟨n, htaken⟩
    refine ⟨n, sendLoop_isSome_iff.mpr ⟨n, ?_, ?_⟩⟩
    · rw [view_length]
    · rwa [take_view sends (Nat.le_refl n)]

/-! When the results of `send` add up to the bytes there are. -/

/-- Once every call fails nothing more is taken. -/
theorem taken_of_fails {sends : ℕ → SendRet} {k : ℕ} (h : ∀ m, k ≤ m → (sends m).taken = 0)
    {n : ℕ} (hn : k ≤ n) : taken (view sends n) = taken (view sends k) := by
  induction n, hn using Nat.le_induction with
  | base => rfl
  | succ n hn ih => rw [taken_view_succ, h n hn, ih, Nat.add_zero]

theorem taken_mono (sends : ℕ → SendRet) {m n : ℕ} (h : m ≤ n) :
    taken (view sends m) ≤ taken (view sends n) := by
  induction n, h using Nat.le_induction with
  | base => exact Nat.le_refl _
  | succ n _ ih => exact Nat.le_trans ih (taken_view_succ sends n ▸ Nat.le_add_right _ _)

theorem not_failsForever_of_taken {sends : ℕ → SendRet} {bytesToBeSend n : ℕ}
    (h : taken (view sends n) = bytesToBeSend) : ¬ FailsForever bytesToBeSend sends := by
  rintro ⟨k, hk, hfails⟩
  rcases Nat.le_total k n with hkn | hnk
  · have hsame := taken_of_fails hfails hkn
    omega
  · have hmono := taken_mono sends hnk
    omega

/-- Each call that takes bytes brings the end closer, and `send` takes bytes again and again. -/
theorem exists_taken {sends : ℕ → SendRet} {bytesToBeSend : ℕ}
    (hat : TakesAtMost bytesToBeSend sends) (hfair : ¬ FailsForever bytesToBeSend sends) :
    ∃ n, taken (view sends n) = bytesToBeSend := by
  by_contra hnever
  have hremain (n : ℕ) : taken (view sends n) < bytesToBeSend := by
    induction n with
    | zero => exact Nat.lt_of_le_of_ne (Nat.zero_le _) fun heq => hnever ⟨0, heq⟩
    | succ n ih => exact Nat.lt_of_le_of_ne (hat n ih) fun heq => hnever ⟨n+1, heq⟩
  have hgrows (j : ℕ) : ∃ n, j ≤ taken (view sends n) := by
    induction j with
    | zero => exact ⟨0, Nat.zero_le _⟩
    | succ j ih =>
      obtain ⟨k, hk⟩ := ih
      -- a later call that takes something
      have hlater : ∃ m, k ≤ m ∧ (sends m).taken ≠ 0 := by
        by_contra hnone
        refine hfair ⟨k, hremain k, fun m hm => ?_⟩
        by_contra htaken
        exact hnone ⟨m, hm, htaken⟩
      obtain ⟨m, hm, htaken⟩ := hlater
      have hmono := taken_mono sends hm
      exact ⟨m+1, by rw [taken_view_succ]; omega⟩
  obtain ⟨n, hn⟩ := hgrows bytesToBeSend
  exact absurd (hremain n) (Nat.not_lt_of_le hn)

theorem taken_iff_not_failsForever {sends : ℕ → SendRet} {bytesToBeSend : ℕ}
    (hat : TakesAtMost bytesToBeSend sends) :
    (∃ n, taken (view sends n) = bytesToBeSend) ↔ ¬ FailsForever bytesToBeSend sends :=
  ⟨fun ⟨_, hn⟩ => not_failsForever_of_taken hn, exists_taken hat⟩

/-! `TransmitPending`. -/

theorem transmitPending_open {s : Server} {i : ℕ} (hsocket : (s.pClients i).socket ≠ -1)
    (sends : List SendRet) :
    transmitPending s i sends =
      (sendLoop sends (bytesPending s i) 0 true).map fun status =>
        (status, s.setClient i
          { s.pClients i with pendingSendBuffer := List.replicate netBufferSize 0 }) := by
  unfold transmitPending
  simp only [if_neg hsocket, bytesPending]
  cases sendLoop sends (strlen (s.pClients i).pendingSendBuffer+1) 0 true <;> rfl

/-- With an open socket `TransmitPending` returns when its bytes have been taken. -/
theorem returns_iff_taken {s : Server} {i : ℕ} (hsocket : (s.pClients i).socket ≠ -1)
    {sends : ℕ → SendRet} :
    Returns s i sends ↔ ∃ n, taken (view sends n) = bytesPending s i := by
  rw [← sendLoop_ends_iff]
  constructor
  · rintro ⟨n, status, t, hreturn, -⟩
    rw [transmitPending_open hsocket] at hreturn
    obtain ⟨_, hloop, -⟩ := Option.map_eq_some_iff.mp hreturn
    exact ⟨n, hloop ▸ rfl⟩
  · rintro ⟨n, hended⟩
    obtain ⟨status, hstatus⟩ := Option.isSome_iff_exists.mp hended
    obtain ⟨m, htaken⟩ := sendLoop_ends_iff.mp ⟨n, hended⟩
    have hreturn := transmitPending_open hsocket (view sends n)
    rw [hstatus] at hreturn
    exact ⟨n, status, _, hreturn, fun hfails =>
      absurd hfails (not_failsForever_of_taken htaken)⟩

/-- `TransmitPending` returns exactly when there is no socket, or `send` does not fail for ever
while bytes remain. -/
theorem transmitPending_returns_iff {s : Server} {i : ℕ} {sends : ℕ → SendRet}
    (hat : TakesAtMost (bytesPending s i) sends) :
    Returns s i sends ↔
      (s.pClients i).socket = -1 ∨ ¬ FailsForever (bytesPending s i) sends := by
  by_cases hsocket : (s.pClients i).socket = -1
  · refine iff_of_true ⟨0, false, s, ?_, fun _ => rfl⟩ (Or.inl hsocket)
    unfold transmitPending
    exact if_pos hsocket
  · rw [returns_iff_taken hsocket, taken_iff_not_failsForever hat]
    exact ⟨Or.inr, fun h => h.resolve_left hsocket⟩

/-- The byte that ends the empty string is taken after a transient error. -/
def retryThenTake : ℕ → SendRet := fun n => if n = 1 then .count 1 else .again

theorem transmitPending_returns_retry : Returns firstClient 2 retryThenTake := by
  have hpending : bytesPending firstClient 2 = 1 := by decide +kernel
  have htwo : taken (view retryThenTake 2) = 1 := by decide
  have hrest : ∀ m, 2 ≤ m → (retryThenTake m).taken = 0 := by
    intro m hm
    rw [retryThenTake, if_neg (by omega)]
    rfl
  have hat : TakesAtMost (bytesPending firstClient 2) retryThenTake := by
    intro n _
    rw [hpending]
    rcases Nat.le_total (n+1) 2 with hle | hge
    · exact le_of_le_of_eq (taken_mono retryThenTake hle) htwo
    · exact le_of_eq ((taken_of_fails hrest hge).trans htwo)
  rw [← hpending] at htwo
  exact (transmitPending_returns_iff hat).mpr (Or.inr (not_failsForever_of_taken htwo))

/-- The peer has gone: every call of `send` fails, and the loop goes on for ever. -/
theorem transmitPending_never_returns :
    ¬ ∀ (s : Server) (i : ℕ) (sends : ℕ → SendRet),
      TakesAtMost (bytesPending s i) sends → Returns s i sends := by
  intro hall
  have hnothing (n : ℕ) : taken (view (fun _ => SendRet.error) n) = 0 :=
    taken_of_fails (k := 0) (fun _ _ => rfl) (Nat.zero_le n)
  have hreturns := hall firstClient 2 (fun _ => .error) fun n _ => by
    rw [hnothing]
    exact Nat.zero_le _
  obtain ⟨n, hn⟩ := (returns_iff_taken firstClient_connected.socket).mp hreturns
  rw [hnothing] at hn
  cases hn

end LinuxPrograms.PollServer
