import LinuxPrograms.C1000kChunks

/-! The worker of the c1000k client (client/src/worker.cpp): `order_readfun` and `process_order`.
`process_order` moves the processed bytes behind themselves where the unprocessed ones should be
moved to the front, and `order_readfun` keeps a read only when it completes a descriptor, so the
orders are decoded exactly when every read brings whole descriptors. -/
namespace LinuxPrograms.C1000k.Client
open Lib

def maxFd : ℕ := 6*10*1024

/-- The functions `process_order` stores. -/
inductive FdFun
  | clientReadfun
  | clientWritefun
  | clientClosefun
deriving DecidableEq, Repr

/-- `process_order` neither reads nor writes the other fields. -/
structure FdProcess where
  mReadfun : Option FdFun
  mWritefun : Option FdFun
  mClosefun : Option FdFun
deriving DecidableEq, Repr

/-- What a call of `order_readfun` works on besides its locals. -/
structure Worker where
  gFdProcess : ℕ → FdProcess
  opened : ℕ → Bool
  interest : List ℕ

/-- What `process_order` does with one descriptor. `set_noblock` fails on a closed one, and
`epoll_ctl` on a registered one. -/
def registerOrder (fd : ℕ) (s : Worker) : Except Stop Worker :=
  if s.opened fd = false then .error .exit
  else if maxFd ≤ fd then .error .undefined
  else if fd ∈ s.interest then .error .exit
  else .ok { s with
    gFdProcess := Function.update s.gFdProcess fd
      ⟨some .clientReadfun, some .clientWritefun, some .clientClosefun⟩
    interest := s.interest ++ [fd] }

theorem registerOrder_eq_ok {fd : ℕ} {s s' : Worker} :
    registerOrder fd s = .ok s' ↔ s.opened fd = true ∧ fd < maxFd ∧ fd ∉ s.interest ∧
      s' = { s with
        gFdProcess := Function.update s.gFdProcess fd
          ⟨some .clientReadfun, some .clientWritefun, some .clientClosefun⟩
        interest := s.interest ++ [fd] } := by
  unfold registerOrder
  rw [ite_error_eq_ok, ite_error_eq_ok, ite_error_eq_ok, Bool.not_eq_false, not_le,
    Except.ok.injEq, eq_comm (b := s')]

/-- `count` is `buffindex`, compared as an unsigned value. -/
def processOrder (b : RecvBuffer (4*1024)) (s : Worker) :
    Except Stop (Worker × RecvBuffer (4*1024)) :=
  match decodeRounds (fun processed => (processed : ℤ)+4 ≤ b.count % 2^32)
      (fun _ => registerOrder) 0 b.buff s with
  | .error e => .error e
  | .ok (s', processed) =>
    if (processed : ℤ) = b.count % 2^32 then .ok (s', { b with count := 0 })
    else
      match b.memmove processed 0 ((b.count-processed) % 2^32).toNat with
      | .error e => .error e
      | .ok b' => .ok (s', { b' with count := toInt processed })

/-- The loop of `order_readfun` over what its calls of `read` brought before `EAGAIN`; an empty
read stands for 0 or another error. The bytes of a read that is not kept stay behind the counted
ones, where the next read overwrites them. -/
def orderLoop : List (List UInt8) → RecvBuffer (4*1024) → Worker →
    Except Stop (Worker × RecvBuffer (4*1024))
  | [], b, s => .ok (s, b)
  | bytes :: reads, b, s =>
    match b.write bytes with
    | .error e => .error e
    | .ok b' =>
      if 0 < bytes.length ∧ 4 ≤ (b.count+bytes.length) % 2^64 then
        match processOrder { b' with count := b.count+bytes.length } s with
        | .error e => .error e
        | .ok (s', b'') => orderLoop reads b'' s'
      else orderLoop reads b' s

/-- `buff` and `buffindex` are locals. -/
def orderReadfun (reads : List (List UInt8)) (s : Worker) : Except Stop Worker :=
  (orderLoop reads (RecvBuffer.zero _) s).map (·.1)

/-- The reads were decoded: their complete descriptors are registered in order, and what they leave
over is at the start of `buff`, counted by `buffindex`. -/
def OrdersKept (reads : List (List UInt8)) (s : Worker) : Prop :=
  ∃ s' b', orderLoop reads (RecvBuffer.zero _) s = .ok (s', b') ∧
    s'.interest = s.interest ++ decodeInts reads.flatten ∧ b'.Holds (leftover 4 reads.flatten)

/-- Decoded reads are registered when the call returns. -/
theorem OrdersKept.registered {reads : List (List UInt8)} {s : Worker} (h : OrdersKept reads s) :
    ∃ s', orderReadfun reads s = .ok s' ∧
      s'.interest = s.interest ++ decodeInts reads.flatten := by
  obtain ⟨s', b', hrun, hinterest, _⟩ := h
  refine ⟨s', ?_, hinterest⟩
  rw [orderReadfun, hrun]
  rfl

variable {reads : List (List UInt8)} {b b' : RecvBuffer (4*1024)} {s s' : Worker}

/-- `process_order` processes what `process_connection` would, and then counts the processed bytes,
which are still in front. -/
theorem processOrder_eq {l : List UInt8} (hb : b.Holds l) :
    (∀ e, processConnection (fun _ => registerOrder) (fun _ => 0) 0 l s = .error e →
      processOrder b s = .error e) ∧
    ∀ s' rest, processConnection (fun _ => registerOrder) (fun _ => 0) 0 l s = .ok (s', rest) →
      ∃ b', processOrder b s = .ok (s', b') ∧
        b'.count = (if l.length % 4 = 0 then 0 else 4*(l.length / 4) : ℕ) ∧
        b'.buff.take (4*(l.length / 4)) = l.take (4*(l.length / 4)) := by
  have hle := hb.length_le
  have hunsigned : b.count % 2^32 = l.length := by
    rw [hb.count]
    omega
  have hmore : ∀ k, 4*k ≤ l.length →
      (((4*k : ℕ) : ℤ)+4 ≤ b.count % 2^32 ↔ 4*(k+1) ≤ l.length) := by
    intro k _
    rw [hunsigned]
    omega
  have hrounds : decodeRounds (fun processed => (processed : ℤ)+4 ≤ b.count % 2^32)
      (fun _ => registerOrder) 0 b.buff s = _ :=
    decodeRounds_array hb (fun _ => registerOrder) (fun _ => 0) s hmore
  unfold processOrder
  rw [hrounds]
  refine ⟨fun e herr => ?_, fun s' rest hok => ?_⟩
  · rw [herr]
    rfl
  · rw [hok, Except.map]
    dsimp only
    rw [hunsigned]
    have hfront : b.buff.take (4*(l.length / 4)) = l.take (4*(l.length / 4)) := by
      have htake := congrArg (List.take (4*(l.length / 4))) hb.front
      rwa [List.take_take, Nat.min_eq_left (Nat.mul_div_le _ _)] at htake
    by_cases haligned : l.length % 4 = 0
    · rw [if_pos (by omega), if_pos haligned]
      exact ⟨_, rfl, rfl, hfront⟩
    · rw [if_neg (by omega), if_neg haligned]
      have hcount : toInt (4*(l.length / 4) : ℕ) = (4*(l.length / 4) : ℕ) :=
        toInt_of_lt (by omega) (by omega)
      -- the processed bytes stay, and the move writes behind them
      have hroom : 4*(l.length / 4)+((b.count-(4*(l.length / 4) : ℕ)) % 2^32).toNat ≤ 4*1024 ∧
          0+((b.count-(4*(l.length / 4) : ℕ)) % 2^32).toNat ≤ 4*1024 := by
        rw [hb.count]
        omega
      obtain ⟨b', hmove, hkept⟩ := b.memmove_keeps hroom
      rw [hmove, hcount]
      exact ⟨_, rfl, rfl, hkept.trans hfront⟩

/-- One read: it does not fit, or it is kept when it completes a descriptor. -/
theorem orderLoop_cons {l : List UInt8} (hb : b.Holds l) (bytes : List UInt8)
    (reads : List (List UInt8)) (s : Worker) :
    (4*1024 < l.length+bytes.length ∧ ∃ e, orderLoop (bytes :: reads) b s = .error e) ∨
      ∃ b₁ b₂ : RecvBuffer (4*1024), b₁.Holds l ∧ b₂.Holds (l ++ bytes) ∧
        orderLoop (bytes :: reads) b s =
          if 0 < bytes.length ∧ 4 ≤ l.length+bytes.length then
            match processOrder b₂ s with
            | .error e => .error e
            | .ok (s', b') => orderLoop reads b' s'
          else orderLoop reads b₁ s := by
  by_cases hlong : 4*1024 < l.length+bytes.length
  · refine Or.inl ⟨hlong, .notEnabled, ?_⟩
    rw [orderLoop, hb.write_error hlong]
  · obtain ⟨b₁, hwrite⟩ := hb.write (not_lt.mp hlong)
    obtain ⟨hheld, hcounted⟩ := hb.write_ok hwrite
    -- the sum is compared as an unsigned value
    have htest : 4 ≤ (b.count+bytes.length) % 2^64 ↔ 4 ≤ l.length+bytes.length := by
      rw [hb.count]
      omega
    refine Or.inr ⟨b₁, _, hheld, hcounted, ?_⟩
    rw [orderLoop, hwrite]
    simp only [htest]

theorem registersAll_interest {fds : List ℕ} (h : RegistersAll (fun _ => registerOrder) fds s s') :
    s'.interest = s.interest ++ fds := by
  refine h.appends fun _ fd s s' hreg => ?_
  obtain ⟨_, _, _, rfl⟩ := registerOrder_eq_ok.mp hreg
  rfl

/-- A registered descriptor is in front of the unprocessed bytes: `epoll_ctl` will refuse it. -/
def Stuck (b : RecvBuffer (4*1024)) (s : Worker) : Prop :=
  ∃ l, b.Holds l ∧ 4 ≤ l.length ∧ leNat (l.take 4) ∈ s.interest

theorem processOrder_stuck (h : Stuck b s) : ∃ e, processOrder b s = .error e := by
  obtain ⟨l, hb, hlen, hmem⟩ := h
  have herr : ∃ e, registerOrder (leNat (l.take 4)) s = .error e := by
    cases hreg : registerOrder (leNat (l.take 4)) s with
    | error e => exact ⟨e, rfl⟩
    | ok s' => exact absurd hmem (registerOrder_eq_ok.mp hreg).2.2.1
  obtain ⟨e, herr⟩ := herr
  refine ⟨e, (processOrder_eq hb).1 e ?_⟩
  obtain ⟨b₀, b₁, b₂, b₃, rest, rfl⟩ : ∃ b₀ b₁ b₂ b₃ rest, l = b₀ :: b₁ :: b₂ :: b₃ :: rest := by
    by_contra hshort
    have hlt := length_lt_four fun b₀ b₁ b₂ b₃ rest heq => hshort ⟨b₀, b₁, b₂, b₃, rest, heq⟩
    omega
  rw [processConnection]
  simp only [List.take_succ_cons, List.take_zero] at herr
  rw [herr]

/-- From there a call ends in `exit`, or reads nothing more and `buffindex` stays where it is. -/
theorem orderLoop_stuck (h : Stuck b s) (hrun : orderLoop reads b s = .ok (s', b')) :
    4 ≤ b'.count := by
  induction reads generalizing b with
  | nil =>
    cases hrun
    obtain ⟨l, hb, hlen, _⟩ := h
    rw [hb.count]
    omega
  | cons bytes reads ih =>
    obtain ⟨l, hb, hlen, hmem⟩ := h
    rcases orderLoop_cons hb bytes reads s with ⟨_, e, herr⟩ | ⟨b₁, b₂, hb₁, hb₂, hstep⟩
    · rw [herr] at hrun
      cases hrun
    · rw [hstep] at hrun
      split at hrun
      -- the read brought something, and the descriptor in front is registered again
      · have hfront : (l ++ bytes).take 4 = l.take 4 := List.take_append_of_le_length hlen
        have hlong : 4 ≤ (l ++ bytes).length := by
          rw [List.length_append]
          omega
        obtain ⟨e, herr⟩ := processOrder_stuck ⟨l ++ bytes, hb₂, hlong, hfront ▸ hmem⟩
        rw [herr] at hrun
        cases hrun
      · exact ih ⟨l, hb₁, hlen, hmem⟩ hrun

/-- A call that returns has registered the complete descriptors. When bytes are left over, the
processed ones are counted again, and are registered already. -/
theorem processOrder_ok {l : List UInt8} (hb : b.Holds l) (hfour : 4 ≤ l.length)
    (h : processOrder b s = .ok (s', b')) :
    s'.interest = s.interest ++ decodeInts l ∧
      if l.length % 4 = 0 then b'.count = 0 else Stuck b' s' := by
  obtain ⟨herror, hok⟩ := processOrder_eq (s := s) hb
  cases hproc : processConnection (fun _ => registerOrder) (fun _ => 0) 0 l s with
  | error e =>
    rw [herror e hproc] at h
    cases h
  | ok p =>
    obtain ⟨s₁, rest⟩ := p
    obtain ⟨b₁, horder, hcount, hfront⟩ := hok s₁ rest hproc
    obtain ⟨hall, _⟩ := processConnection_ok hproc
    cases horder.symm.trans h
    have hinterest := registersAll_interest hall
    refine ⟨hinterest, ?_⟩
    split
    · next haligned => rwa [if_pos haligned] at hcount
    · next hleft =>
      rw [if_neg hleft] at hcount
      have hlen : (l.take (4*(l.length / 4))).length = 4*(l.length / 4) := by
        rw [List.length_take]
        omega
      refine ⟨l.take (4*(l.length / 4)), ⟨?_, ?_⟩, ?_, ?_⟩
      · rw [hlen]
        exact hcount
      · rw [hlen]
        exact hfront
      · omega
      · rw [List.take_take, Nat.min_eq_left (by omega), hinterest, decodeInts,
          records_of_le (by decide) hfour]
        exact List.mem_append_right _ List.mem_cons_self

/-- The reads that do not bring whole descriptors. -/
def misaligned (reads : List (List UInt8)) : List (List UInt8) :=
  reads.filter fun bytes => decide (bytes.length % 4 ≠ 0)

theorem misaligned_cons_length (bytes : List UInt8) (reads : List (List UInt8)) :
    (misaligned (bytes :: reads)).flatten.length =
      (if bytes.length % 4 = 0 then 0 else bytes.length)+(misaligned reads).flatten.length := by
  unfold misaligned
  rw [List.filter_cons]
  by_cases haligned : bytes.length % 4 = 0
  · simp [haligned]
  · simp [haligned]

/-- A call that returns has left `buffindex` behind registered descriptors, or it has registered
one descriptor for every four bytes of the reads that bring whole descriptors; by induction on the
reads, as long as `buffindex` is 0. -/
theorem orderLoop_counts (hb : b.count = 0) (hrun : orderLoop reads b s = .ok (s', b')) :
    4 ≤ b'.count ∨ b'.count = 0 ∧
      4*s'.interest.length+(misaligned reads).flatten.length =
        4*s.interest.length+reads.flatten.length := by
  induction reads generalizing b s with
  | nil =>
    cases hrun
    exact Or.inr ⟨hb, rfl⟩
  | cons bytes reads ih =>
    have hempty : b.Holds [] := ⟨hb, rfl⟩
    rcases orderLoop_cons hempty bytes reads s with ⟨_, e, herr⟩ | ⟨b₁, b₂, hb₁, hb₂, hstep⟩
    · rw [herr] at hrun
      cases hrun
    rw [hstep, List.length_nil, Nat.zero_add] at hrun
    rw [List.flatten_cons, List.length_append, misaligned_cons_length]
    split at hrun
    · next hkept =>
      split at hrun
      · cases hrun
      · next s₁ b₃ horder =>
        obtain ⟨hinterest, hleft⟩ := processOrder_ok hb₂ hkept.2 horder
        rw [List.nil_append] at hinterest hleft
        have hlen := congrArg List.length hinterest
        rw [List.length_append, decodeInts_length] at hlen
        split at hleft
        · next haligned =>
          refine (ih hleft hrun).imp_right fun ⟨hzero, hsum⟩ => ⟨hzero, ?_⟩
          rw [if_pos haligned]
          omega
        · exact Or.inl (orderLoop_stuck hleft hrun)
    · -- the read was too short and its bytes are lost
      refine (ih hb₁.count hrun).imp_right fun ⟨hzero, hsum⟩ => ⟨hzero, ?_⟩
      split <;> omega

theorem aligned_of_kept (h : OrdersKept reads s) : ∀ bytes ∈ reads, bytes.length % 4 = 0 := by
  obtain ⟨s', b', hrun, hinterest, hheld⟩ := h
  intro bytes hbytes
  by_contra hmis
  have hcount := hheld.count
  have hlen := congrArg List.length hinterest
  rw [leftover_length] at hcount
  rw [List.length_append, decodeInts_length] at hlen
  rcases orderLoop_counts rfl hrun with hfour | ⟨hzero, hsum⟩
  -- `buffindex` would be the length of a leftover
  · omega
  · have hnone : (misaligned reads).flatten.length = 0 := by omega
    have hmem : bytes ∈ misaligned reads := List.mem_filter.mpr ⟨hbytes, by simpa using hmis⟩
    have hnil := List.flatten_eq_nil_iff.mp (List.eq_nil_of_length_eq_zero hnone) bytes hmem
    rw [hnil] at hmis
    exact hmis rfl

/-- Reads of whole descriptors are decoded one by one, each into the whole array. -/
theorem orderLoop_aligned (hb : b.count = 0) (haligned : ∀ bytes ∈ reads, bytes.length % 4 = 0)
    (hroom : ∀ bytes ∈ reads, bytes.length ≤ 4*1024)
    (hreg : CanRegister (fun _ => registerOrder) (decodeInts reads.flatten) s) :
    ∃ s' b', orderLoop reads b s = .ok (s', b') ∧
      RegistersAll (fun _ => registerOrder) (decodeInts reads.flatten) s s' ∧
      b'.count = 0 ∧ leftover 4 reads.flatten = [] := by
  induction reads generalizing b s with
  | nil => exact ⟨s, b, rfl, rfl, hb, rfl⟩
  | cons bytes reads ih =>
    obtain ⟨hbytes, hwhole⟩ := List.forall_mem_cons.mp haligned
    obtain ⟨hfits, hrooms⟩ := List.forall_mem_cons.mp hroom
    have hleft : leftover 4 bytes = [] :=
      List.eq_nil_of_length_eq_zero ((leftover_length 4 bytes).trans hbytes)
    rw [List.flatten_cons, decodeInts_append, hleft, List.nil_append] at hreg
    rw [List.flatten_cons, decodeInts_append, leftover_append (by decide) bytes, hleft,
      List.nil_append]
    have hempty : b.Holds [] := ⟨hb, rfl⟩
    rcases orderLoop_cons hempty bytes reads s with ⟨hlong, _⟩ | ⟨b₁, b₂, hb₁, hb₂, hstep⟩
    · rw [List.length_nil] at hlong
      omega
    rw [hstep, List.length_nil, Nat.zero_add]
    split
    · obtain ⟨s₁, hproc, hreg₁⟩ := processConnection_total hreg
      obtain ⟨hall, _⟩ := processConnection_ok hproc
      obtain ⟨b₃, horder, hcount, _⟩ := (processOrder_eq hb₂).2 s₁ _ hproc
      rw [List.nil_append, if_pos hbytes] at hcount
      rw [horder]
      obtain ⟨s', b', hrun, hall', hzero, hnil⟩ := ih hcount hwhole hrooms hreg₁
      exact ⟨s', b', hrun, hall.append hall', hzero, hnil⟩
    · next hdropped =>
      have hnil : bytes = [] := List.eq_nil_of_length_eq_zero (by omega)
      subst hnil
      exact ih hb₁.count hwhole hrooms hreg

/-- The orders are decoded, whatever their stream, exactly when every read brings whole
descriptors. -/
theorem orders_kept_iff_aligned (reads : List (List UInt8)) (s : Worker)
    (hroom : ∀ bytes ∈ reads, bytes.length ≤ 4*1024)
    (hreg : CanRegister (fun _ => registerOrder) (decodeInts reads.flatten) s) :
    OrdersKept reads s ↔ ∀ bytes ∈ reads, bytes.length % 4 = 0 := by
  refine ⟨aligned_of_kept, fun haligned => ?_⟩
  obtain ⟨s', b', hrun, hall, hzero, hnil⟩ :=
    orderLoop_aligned (b := RecvBuffer.zero _) rfl haligned hroom hreg
  refine ⟨s', b', hrun, registersAll_interest hall, ?_⟩
  rw [hnil]
  exact ⟨hzero, rfl⟩

def allOpen : Worker := ⟨fun _ => ⟨none, none, none⟩, fun _ => true, []⟩

/-- Descriptors 5 and 6 in two whole reads. -/
theorem orders_kept_iff_aligned_two :
    OrdersKept [[5, 0, 0, 0], [6, 0, 0, 0]] allOpen ↔
      ∀ bytes ∈ [[5, 0, 0, 0], [6, 0, 0, 0]], (bytes : List UInt8).length % 4 = 0 :=
  orders_kept_iff_aligned _ allOpen (by decide) (fun _ => ⟨_, rfl, fun _ => ⟨_, rfl, trivial⟩⟩)

/-- Descriptors 5 and 6, cut inside the second one. -/
def cutReads : List (List UInt8) := [[5, 0, 0, 0, 6, 0], [0, 0]]

theorem orders_lost_when_cut :
    (∀ bytes ∈ cutReads, bytes.length ≤ 4*1024) ∧
      CanRegister (fun _ => registerOrder) (decodeInts cutReads.flatten) allOpen ∧
      ¬ OrdersKept cutReads allOpen := by
  refine ⟨by decide, fun _ => ⟨_, rfl, fun _ => ⟨_, rfl, trivial⟩⟩, fun hkept => ?_⟩
  have hlen := aligned_of_kept hkept [5, 0, 0, 0, 6, 0] List.mem_cons_self
  exact absurd hlen (by decide)

end LinuxPrograms.C1000k.Client
