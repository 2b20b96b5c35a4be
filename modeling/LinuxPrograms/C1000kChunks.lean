import LinuxPrograms.C1000kWorker

/-! The arrays that descriptors are read from, four bytes at a time. `process_connection` and
`readfun_getConnections` on such an array, with the signed and unsigned counts as the code compares
them and the move of the bytes that are left, are the worker's functions over the unprocessed
bytes; and the stream is decoded however it is cut into chunks. -/
namespace LinuxPrograms.C1000k
open Lib

/-- The conversion of an unsigned value to `int`. -/
def toInt (n : ℤ) : ℤ := Int.bmod n (2^32)

theorem toInt_of_lt {n : ℤ} (h0 : 0 ≤ n) (h : n < 2^31) : toInt n = n := by
  apply Int.bmod_eq_of_le <;> omega

/-- A `char` array of `size` bytes and the `int` that counts its unprocessed bytes. -/
structure RecvBuffer (size : ℕ) where
  buff : List UInt8
  count : ℤ
  size_eq : buff.length = size

namespace RecvBuffer

variable {size : ℕ} {b : RecvBuffer size} {l : List UInt8}

/-- `char buff[size] = {0}`. -/
def zero (size : ℕ) : RecvBuffer size := ⟨List.replicate size 0, 0, List.length_replicate⟩

/-- What `recv` or `read` of `bytes` does at `buff + count`; it returns no more than there is room
for. -/
def write (b : RecvBuffer size) (bytes : List UInt8) : Except Stop (RecvBuffer size) :=
  if h : 0 ≤ b.count ∧ b.count.toNat+bytes.length ≤ size then
    .ok { b with
      buff := copyTo b.buff b.count.toNat bytes
      size_eq := by
        rw [copyTo_length _ _ _ (by rw [b.size_eq]; exact h.2)]
        exact b.size_eq }
  else .error .notEnabled

/-- `memmove(buff + dst, buff + src, n)`. -/
def memmove (b : RecvBuffer size) (dst src n : ℕ) : Except Stop (RecvBuffer size) :=
  if h : dst+n ≤ size ∧ src+n ≤ size then
    .ok { b with
      buff := copyTo b.buff dst ((b.buff.drop src).take n)
      size_eq := by
        have hn : ((b.buff.drop src).take n).length = n := by
          rw [List.length_take, List.length_drop, b.size_eq]
          omega
        rw [copyTo_length _ _ _ (by rw [b.size_eq, hn]; exact h.1)]
        exact b.size_eq }
  else .error .undefined

/-- The unprocessed bytes are `l`. -/
structure Holds (b : RecvBuffer size) (l : List UInt8) : Prop where
  count : b.count = l.length
  front : b.buff.take l.length = l

theorem Holds.length_le (h : b.Holds l) : l.length ≤ size := by
  have hlen := congrArg List.length h.front
  rw [List.length_take, b.size_eq] at hlen
  omega

theorem Holds.buff_eq (h : b.Holds l) : b.buff = l ++ b.buff.drop l.length := by
  nth_rewrite 1 [← List.take_append_drop l.length b.buff]
  rw [h.front]

theorem Holds.write (h : b.Holds l) {bytes : List UInt8} (hfit : l.length+bytes.length ≤ size) :
    ∃ b', b.write bytes = .ok b' := by
  have hroom : 0 ≤ b.count ∧ b.count.toNat+bytes.length ≤ size := by
    rw [h.count, Int.toNat_natCast]
    exact ⟨Int.natCast_nonneg _, hfit⟩
  exact ⟨_, dif_pos hroom⟩

theorem Holds.write_error (h : b.Holds l) {bytes : List UInt8}
    (hlong : size < l.length+bytes.length) : b.write bytes = .error .notEnabled := by
  refine dif_neg fun hroom => ?_
  rw [h.count, Int.toNat_natCast] at hroom
  omega

/-- Bytes are written after the unprocessed ones, and belong to them once they are counted. -/
theorem Holds.write_ok (h : b.Holds l) {bytes : List UInt8} {b' : RecvBuffer size}
    (hw : b.write bytes = .ok b') :
    b'.Holds l ∧
      ({ b' with count := b.count+bytes.length } : RecvBuffer size).Holds (l ++ bytes) := by
  have hcount : b.count.toNat = l.length := by rw [h.count, Int.toNat_natCast]
  unfold RecvBuffer.write at hw
  split at hw
  · cases hw
    have hlong : (copyTo b.buff b.count.toNat bytes).take (l ++ bytes).length = l ++ bytes := by
      rw [List.length_append, hcount,
        take_copyTo _ _ _ (by rw [b.size_eq]; exact h.length_le), h.front]
    have hfront : (copyTo b.buff b.count.toNat bytes).take l.length = l := by
      have hshort := congrArg (List.take l.length) hlong
      rw [List.take_take, List.length_append, Nat.min_eq_left (Nat.le_add_right _ _),
        List.take_left] at hshort
      exact hshort
    have hsum : b.count+bytes.length = (l ++ bytes).length := by
      rw [h.count, List.length_append, Int.natCast_add]
    exact ⟨⟨h.count, hfront⟩, hsum, hlong⟩
  · cases hw

/-- The last bytes of the unprocessed ones are moved to the front. -/
theorem Holds.memmove {a : List UInt8} (h : b.Holds (a ++ l)) :
    ∃ b', b.memmove 0 a.length l.length = .ok b' ∧ b'.buff.take l.length = l := by
  have hle := h.length_le
  rw [List.length_append] at hle
  have hroom : 0+l.length ≤ size ∧ a.length+l.length ≤ size := by omega
  unfold RecvBuffer.memmove
  rw [dif_pos hroom]
  refine ⟨_, rfl, ?_⟩
  have hmoved : (b.buff.drop a.length).take l.length = l := by
    rw [h.buff_eq, List.append_assoc, List.drop_left, List.take_left]
  have htake := take_copyTo b.buff 0 l (Nat.zero_le _)
  rw [Nat.zero_add] at htake
  dsimp only
  rw [hmoved, htake]
  rfl

/-- A move leaves what is before its target. -/
theorem memmove_keeps (b : RecvBuffer size) {dst src n : ℕ} (h : dst+n ≤ size ∧ src+n ≤ size) :
    ∃ b', b.memmove dst src n = .ok b' ∧ b'.buff.take dst = b.buff.take dst := by
  refine ⟨_, dif_pos h, take_copyTo_front _ _ _ ?_⟩
  rw [b.size_eq]
  omega

end RecvBuffer

section Rounds

variable {σ : Type*} (more : ℕ → Prop) [DecidablePred more]
  (register : ℕ → ℕ → σ → Except Stop σ)

/-- The loop over the descriptors of an array from its round `k` on, at `processed = 4*k`; the
bytes are the array's from there on. It returns `processed`. -/
def decodeRounds : ℕ → List UInt8 → σ → Except Stop (σ × ℕ)
  | k, b₀ :: b₁ :: b₂ :: b₃ :: buff, s =>
    if more (4*k) then
      match register k (leNat [b₀, b₁, b₂, b₃]) s with
      | .ok s' => decodeRounds (k+1) buff s'
      | .error e => .error e
    else .ok (s, 4*k)
  | k, _, s => if more (4*k) then .error .undefined else .ok (s, 4*k)

variable {more register}

theorem decodeRounds_done {k : ℕ} (hmore : ¬ more (4*k)) (buff : List UInt8) (s : σ) :
    decodeRounds more register k buff s = .ok (s, 4*k) := by
  unfold decodeRounds
  split <;> rw [if_neg hmore]

/-- While its test says whether four unprocessed bytes are left, the loop does what
`process_connection` does with these bytes, and what follows them does not matter. -/
theorem decodeRounds_eq {register : TimeValue → ℕ → σ → Except Stop σ} {now : ℕ → TimeValue}
    {total : ℕ} (hmore : ∀ k, 4*k ≤ total → (more (4*k) ↔ 4*(k+1) ≤ total)) (after : List UInt8)
    {k : ℕ} {buff : List UInt8} {s : σ} (htotal : 4*k+buff.length = total) :
    decodeRounds more (fun k => register (now k)) k (buff ++ after) s =
      (processConnection register now k buff s).map fun p => (p.1, total-p.2.length) := by
  fun_induction processConnection register now k buff s with
  | case1 k b₀ b₁ b₂ b₃ buff s s₁ hreg ih =>
    simp only [List.length_cons] at htotal
    have htest := (hmore k (by omega)).mpr (by omega)
    simp only [List.cons_append]
    rw [decodeRounds, if_pos htest, hreg]
    exact ih (by omega)
  | case2 k b₀ b₁ b₂ b₃ buff s e hreg =>
    simp only [List.length_cons] at htotal
    have htest := (hmore k (by omega)).mpr (by omega)
    simp only [List.cons_append]
    rw [decodeRounds, if_pos htest, hreg]
    rfl
  | case3 k buff s hshort =>
    -- fewer than four bytes are left
    have hlt := length_lt_four hshort
    have hdone : ¬ more (4*k) := by
      rw [hmore k (by omega)]
      omega
    rw [decodeRounds_done hdone, Except.map]
    have hprocessed : 4*k = total-buff.length := by omega
    rw [hprocessed]

/-- Over a whole array: the loop stops behind the last complete descriptor. -/
theorem decodeRounds_array {size : ℕ} {b : RecvBuffer size} {l : List UInt8} (hb : b.Holds l)
    (register : TimeValue → ℕ → σ → Except Stop σ) (now : ℕ → TimeValue) (s : σ)
    (hmore : ∀ k, 4*k ≤ l.length → (more (4*k) ↔ 4*(k+1) ≤ l.length)) :
    decodeRounds more (fun k => register (now k)) 0 b.buff s =
      (processConnection register now 0 l s).map fun p => (p.1, 4*(l.length / 4)) := by
  have hrounds : decodeRounds more (fun k => register (now k)) 0 (l ++ b.buff.drop l.length) s =
      (processConnection register now 0 l s).map fun p => (p.1, l.length-p.2.length) :=
    decodeRounds_eq hmore _ (by omega)
  rw [← hb.buff_eq] at hrounds
  rw [hrounds]
  cases hproc : processConnection register now 0 l s with
  | error e => rfl
  | ok p =>
    obtain ⟨_, hrest⟩ := processConnection_ok hproc
    have hmod := leftover_length 4 l
    rw [← hrest] at hmod
    have hprocessed : l.length-p.2.length = 4*(l.length / 4) := by omega
    rw [Except.map, Except.map, hprocessed]

end Rounds

section Server

variable {σ : Type*} (register : TimeValue → ℕ → σ → Except Stop σ)

/-- `process_connection` on the array of `readfun_getConnections`, `count` being `received`. The
difference of `received` and `processed` is unsigned. -/
def processConnectionArray (now : ℕ → TimeValue) (b : RecvBuffer (10*1024)) (s : σ) :
    Except Stop (σ × RecvBuffer (10*1024)) :=
  match decodeRounds (fun processed => toInt (processed+4) ≤ b.count)
      (fun k => register (now k)) 0 b.buff s with
  | .error e => .error e
  | .ok (s', processed) =>
    if toInt processed = b.count then .ok (s', { b with count := 0 })
    else
      let rest := (b.count-processed) % 2^32
      match b.memmove 0 processed rest.toNat with
      | .error e => .error e
      | .ok b' => .ok (s', { b' with count := toInt rest })

/-- The loop of `readfun_getConnections` on its array. The sum of `received` and what `recv`
returned is compared as a `size_t`. -/
def recvLoopArray : List RecvRet → RecvBuffer (10*1024) → σ → Except Stop σ
  | [], _, s => .ok s
  | .other :: _, _, _ => .error .assertFalse
  | .data bytes now :: recvs, b, s =>
    if bytes = [] then .error .notEnabled
    else
      match b.write bytes with
      | .error e => .error e
      | .ok b' =>
        if 4 ≤ (b.count+bytes.length) % 2^64 then
          match processConnectionArray register now { b' with count := b.count+bytes.length } s with
          | .ok (s', b'') => recvLoopArray recvs b'' s'
          | .error e => .error e
        else .error .assertFalse

def readfunGetConnectionsArray (recvs : List RecvRet) (s : σ) : Except Stop σ :=
  recvLoopArray register recvs (RecvBuffer.zero _) s

/-- Each chunk is received at `buffer + received` and a call follows. -/
def processChunks : List (List UInt8 × (ℕ → TimeValue)) → σ → RecvBuffer (10*1024) →
    Except Stop (σ × RecvBuffer (10*1024))
  | [], s, b => .ok (s, b)
  | (chunk, now) :: chunks, s, b =>
    match b.write chunk with
    | .error e => .error e
    | .ok b' =>
      match processConnectionArray register now { b' with count := b.count+chunk.length } s with
      | .error e => .error e
      | .ok (s', b'') => processChunks chunks s' b''

/-- From `received` unprocessed bytes on, every chunk fits in the array. -/
def ChunksFit : ℕ → List (List UInt8 × (ℕ → TimeValue)) → Prop
  | _, [] => True
  | received, (chunk, _) :: chunks =>
    received+chunk.length ≤ 10*1024 ∧ ChunksFit ((received+chunk.length) % 4) chunks

/-- The descriptors can be registered one after the other, at whatever times. -/
def CanRegister : List ℕ → σ → Prop
  | [], _ => True
  | fd :: fds, s => ∀ t, ∃ s', register t fd s = .ok s' ∧ CanRegister fds s'

variable {register}

theorem processConnection_total {now : ℕ → TimeValue} {k : ℕ} {buffer : List UInt8} {s : σ}
    {fds : List ℕ} (h : CanRegister register (decodeInts buffer ++ fds) s) :
    ∃ s', processConnection register now k buffer s = .ok (s', leftover 4 buffer) ∧
      CanRegister register fds s' := by
  fun_induction processConnection register now k buffer s with
  | case1 k b₀ b₁ b₂ b₃ buffer s s₁ hreg ih =>
    rw [decodeInts_cons] at h
    obtain ⟨s', hs', hrest⟩ := h (now k)
    rw [hreg] at hs'
    cases hs'
    rw [leftover_cons]
    exact ih hrest
  | case2 k b₀ b₁ b₂ b₃ buffer s e hreg =>
    rw [decodeInts_cons] at h
    obtain ⟨s', hs', _⟩ := h (now k)
    rw [hreg] at hs'
    cases hs'
  | case3 k buffer s hshort =>
    have hlt := length_lt_four hshort
    rw [decodeInts_of_lt hlt] at h
    rw [leftover_of_lt hlt]
    exact ⟨s, rfl, h⟩

theorem processConnectionArray_rounds {now : ℕ → TimeValue} {b : RecvBuffer (10*1024)}
    {l : List UInt8} (hb : b.Holds l) (s : σ) :
    decodeRounds (fun processed => toInt (processed+4) ≤ b.count) (fun k => register (now k)) 0
        b.buff s =
      (processConnection register now 0 l s).map fun p => (p.1, 4*(l.length / 4)) := by
  have hle := hb.length_le
  refine decodeRounds_array hb register now s fun k hk => ?_
  -- the signed comparison of the unsigned sum is the comparison of the counts
  rw [toInt_of_lt (by omega) (by omega), hb.count]
  omega

theorem processConnectionArray_error {now : ℕ → TimeValue} {b : RecvBuffer (10*1024)}
    {l : List UInt8} {s : σ} {e : Stop} (hb : b.Holds l)
    (h : processConnection register now 0 l s = .error e) :
    processConnectionArray register now b s = .error e := by
  unfold processConnectionArray
  rw [processConnectionArray_rounds hb, h]
  rfl

/-- On the array, `process_connection` does to its unprocessed bytes what the worker's does. -/
theorem processConnectionArray_eq {now : ℕ → TimeValue} {b : RecvBuffer (10*1024)}
    {l rest : List UInt8} {s s' : σ} (hb : b.Holds l)
    (h : processConnection register now 0 l s = .ok (s', rest)) :
    ∃ b', processConnectionArray register now b s = .ok (s', b') ∧ b'.Holds rest := by
  obtain ⟨_, rfl⟩ := processConnection_ok h
  have hle := hb.length_le
  have hmod := leftover_length 4 l
  unfold processConnectionArray
  rw [processConnectionArray_rounds hb, h, Except.map]
  dsimp only
  rw [toInt_of_lt (by omega) (by omega), hb.count]
  by_cases haligned : l.length % 4 = 0
  · rw [if_pos (by omega)]
    refine ⟨_, rfl, ?_⟩
    rw [List.eq_nil_of_length_eq_zero (hmod.trans haligned)]
    exact ⟨rfl, rfl⟩
  -- the complete descriptors stand before what is left over
  · rw [if_neg (by omega)]
    have hsplit : l.take (4*(l.length / 4)) ++ leftover 4 l = l := List.take_append_drop _ _
    have htake : (l.take (4*(l.length / 4))).length = 4*(l.length / 4) := by
      rw [List.length_take]
      omega
    -- the unsigned difference of the counts
    have hrest : ((l.length : ℤ)-(4*(l.length / 4) : ℕ)) % 2^32 = (leftover 4 l).length := by
      rw [hmod]
      omega
    obtain ⟨b', hmove, hfront⟩ := (hsplit ▸ hb : b.Holds (_ ++ leftover 4 l)).memmove
    rw [htake] at hmove
    rw [hrest, Int.toNat_natCast, hmove]
    have hcount : toInt (leftover 4 l).length = (leftover 4 l).length :=
      toInt_of_lt (by omega) (by omega)
    rw [hcount]
    exact ⟨{ b' with count := (leftover 4 l).length }, rfl, rfl, hfront⟩

/-- The worker's loop over the bytes is the loop over the array that holds them. -/
theorem recvLoopArray_eq {recvs : List RecvRet} {b : RecvBuffer (10*1024)} {l : List UInt8}
    (hb : b.Holds l) (s : σ) :
    recvLoopArray register recvs b s = recvLoop register recvs l s := by
  induction recvs generalizing b l s with
  | nil => rfl
  | cons r recvs ih =>
    cases r with
    | other => rfl
    | data bytes now =>
      have hlen := hb.length_le
      rw [recvLoopArray, recvLoop]
      by_cases hnil : bytes = []
      · rw [if_pos hnil, if_pos (Or.inl hnil)]
      rw [if_neg hnil]
      by_cases hlong : 10*1024 < l.length+bytes.length
      · rw [hb.write_error hlong, if_pos (Or.inr (by omega))]
      obtain ⟨b', hwrite⟩ := hb.write (not_lt.mp hlong)
      obtain ⟨_, hheld⟩ := hb.write_ok hwrite
      rw [hwrite, if_neg (by simp only [hnil, false_or]; omega)]
      dsimp only
      have htest : 4 ≤ (b.count+bytes.length) % 2^64 ↔ 4 ≤ (l ++ bytes).length := by
        rw [hb.count, List.length_append]
        omega
      by_cases hfour : 4 ≤ (l ++ bytes).length
      · rw [if_pos (htest.mpr hfour), if_pos hfour]
        cases hproc : processConnection register now 0 (l ++ bytes) s with
        | error e => rw [processConnectionArray_error hheld hproc]
        | ok p =>
          obtain ⟨s', rest⟩ := p
          obtain ⟨b'', harray, hleft⟩ := processConnectionArray_eq hheld hproc
          rw [harray]
          exact ih hleft s'
      · rw [if_neg (fun h => hfour (htest.mp h)), if_neg hfour]

theorem readfunGetConnectionsArray_eq (recvs : List RecvRet) (s : σ) :
    readfunGetConnectionsArray register recvs s = readfunGetConnections register recvs s :=
  recvLoopArray_eq ⟨rfl, rfl⟩ s

/-- The bytes of all chunks. -/
def stream (chunks : List (List UInt8 × (ℕ → TimeValue))) : List UInt8 := chunks.flatMap (·.1)

/-- The calls register what the unprocessed bytes and the chunks decode to, and leave what they
leave over; by induction on the chunks, each call starting with the leftover of the one before. -/
theorem processChunks_spec {chunks : List (List UInt8 × (ℕ → TimeValue))} {s : σ}
    {b : RecvBuffer (10*1024)} {l : List UInt8} (hb : b.Holds l) (hl : l.length < 4)
    (hfit : ChunksFit l.length chunks)
    (hreg : CanRegister register (decodeInts (l ++ stream chunks)) s) :
    ∃ s' b', processChunks register chunks s b = .ok (s', b') ∧
      RegistersAll register (decodeInts (l ++ stream chunks)) s s' ∧
      b'.Holds (leftover 4 (l ++ stream chunks)) := by
  induction chunks generalizing s b l with
  | nil =>
    refine ⟨s, b, rfl, ?_, ?_⟩
    · rw [stream, List.flatMap_nil, List.append_nil, decodeInts_of_lt hl]
      rfl
    · rw [stream, List.flatMap_nil, List.append_nil, leftover_of_lt hl]
      exact hb
  | cons chunk chunks ih =>
    obtain ⟨bytes, now⟩ := chunk
    obtain ⟨hroom, hrest⟩ := hfit
    have hstream : l ++ stream ((bytes, now) :: chunks) = (l ++ bytes) ++ stream chunks := by
      rw [stream, List.flatMap_cons, ← List.append_assoc]
      rfl
    rw [hstream, decodeInts_append] at hreg
    rw [hstream, decodeInts_append, leftover_append (by decide) (l ++ bytes)]
    obtain ⟨b₁, hwrite⟩ := hb.write hroom
    obtain ⟨_, hheld⟩ := hb.write_ok hwrite
    obtain ⟨s₁, hproc, hreg₁⟩ := processConnection_total hreg
    obtain ⟨b₂, harray, hleft⟩ := processConnectionArray_eq hheld hproc
    obtain ⟨hall, _⟩ := processConnection_ok hproc
    have hlt : (leftover 4 (l ++ bytes)).length < 4 := by
      rw [leftover_length]
      omega
    rw [← List.length_append, ← leftover_length] at hrest
    obtain ⟨s', b', hrun, hall', hheld'⟩ := ih hleft hlt hrest hreg₁
    refine ⟨s', b', ?_, hall.append hall', hheld'⟩
    rw [processChunks, hwrite]
    dsimp only
    rw [harray]
    exact hrun

end Server

section Worker

variable [LinearOrder VoidPtr]

/-- A descriptor can be registered when it is open, in range and not yet in the worker's set, and
this leaves the others as they are. -/
theorem canRegister_iff {w : ℕ} {fds : List ℕ} {s : World} :
    CanRegister (registerConnection w) fds s ↔
      fds.Nodup ∧ ∀ fd ∈ fds, s.opened fd = true ∧ fd < maxFd ∧ fd ∉ s.interest w := by
  induction fds generalizing s with
  | nil => simp [CanRegister]
  | cons fd fds ih =>
    simp only [CanRegister, List.nodup_cons, List.forall_mem_cons]
    constructor
    · intro h
      obtain ⟨s', hreg, hrest⟩ := h 0
      obtain ⟨hopen, hrange, hnew, rfl⟩ := registerConnection_eq_ok.mp hreg
      obtain ⟨hnodup, hfds⟩ := ih.mp hrest
      simp only [Function.update_self, List.mem_append, List.mem_singleton, not_or] at hfds
      refine ⟨⟨fun hmem => (hfds fd hmem).2.2.2 rfl, hnodup⟩, ⟨hopen, hrange, hnew⟩,
        fun i hi => ?_⟩
      obtain ⟨hopen', hrange', hnew', _⟩ := hfds i hi
      exact ⟨hopen', hrange', hnew'⟩
    · rintro ⟨⟨hnot, hnodup⟩, ⟨hopen, hrange, hnew⟩, hfds⟩ t
      refine ⟨_, registerConnection_eq_ok.mpr ⟨hopen, hrange, hnew, rfl⟩,
        ih.mpr ⟨hnodup, fun i hi => ?_⟩⟩
      obtain ⟨hopen', hrange', hnew'⟩ := hfds i hi
      refine ⟨hopen', hrange', ?_⟩
      simp only [Function.update_self, List.mem_append, List.mem_singleton, not_or]
      exact ⟨hnew', fun heq => hnot (heq ▸ hi)⟩

/-- Timers for the descriptors, at the times. -/
def TIMER.addTimers (T : TIMER VoidPtr) (fds : List ℕ) (times : List TimeValue) : TIMER VoidPtr :=
  (fds.zip times).foldl (fun T p => T.addTimer (.item p.1) (p.2+10*1000)) T

/-- Registered descriptors are at the end of the worker's set. -/
theorem RegistersAll.interest {w : ℕ} {fds : List ℕ} {s s' : World}
    (h : RegistersAll (registerConnection w) fds s s') : s'.interest w = s.interest w ++ fds := by
  refine h.appends (f := fun s => s.interest w) fun t fd s s' hreg => ?_
  obtain ⟨_, _, _, rfl⟩ := registerConnection_eq_ok.mp hreg
  exact Function.update_self _ _ _

/-- Each has been armed once. -/
theorem RegistersAll.armed {w : ℕ} {fds : List ℕ} {s s' : World}
    (h : RegistersAll (registerConnection w) fds s s') :
    ∃ times, times.length = fds.length ∧ s'.timer w = (s.timer w).addTimers fds times := by
  induction fds generalizing s with
  | nil =>
    cases h
    exact ⟨[], rfl, rfl⟩
  | cons fd fds ih =>
    obtain ⟨t, s₁, hreg, hrest⟩ := h
    obtain ⟨times, hlen, htimer⟩ := ih hrest
    obtain ⟨_, _, _, rfl⟩ := registerConnection_eq_ok.mp hreg
    simp only [Function.update_self] at htimer
    exact ⟨t :: times, congrArg Nat.succ hlen, htimer⟩

/-- `process_connection` decodes the stream however it is cut: the calls register the complete
descriptors of the whole sequence in order, arm each once, and leave the rest of it, less than
four bytes, at the start of the array. -/
theorem process_connection_decodes_stream (w : ℕ) (chunks : List (List UInt8 × (ℕ → TimeValue)))
    (s : World) (b : RecvBuffer (10*1024)) (hempty : b.count = 0) (hfit : ChunksFit 0 chunks)
    (hreg : CanRegister (registerConnection w) (decodeInts (stream chunks)) s) :
    ∃ s' b', processChunks (registerConnection w) chunks s b = .ok (s', b') ∧
      s'.interest w = s.interest w ++ decodeInts (stream chunks) ∧
      (∃ times, times.length = (decodeInts (stream chunks)).length ∧
        s'.timer w = (s.timer w).addTimers (decodeInts (stream chunks)) times) ∧
      b'.count = ((stream chunks).length % 4 : ℕ) ∧
      b'.buff.take ((stream chunks).length % 4) = leftover 4 (stream chunks) := by
  have hb : b.Holds [] := ⟨hempty, rfl⟩
  obtain ⟨s', b', hrun, hall, hheld⟩ := processChunks_spec hb (by decide) hfit hreg
  have hinterest := hall.interest
  have htimes := hall.armed
  rw [List.nil_append] at hinterest htimes hheld
  refine ⟨s', b', hrun, hinterest, htimes, ?_, ?_⟩
  · rw [← leftover_length]
    exact hheld.count
  · rw [← leftover_length]
    exact hheld.front

end Worker

section FourChunks

attribute [local instance] VoidPtr.order

/-- Descriptors 6 and 7 and the first byte of a third one, cut inside the descriptors. -/
def fourChunks : List (List UInt8 × (ℕ → TimeValue)) :=
  [([6], fun _ => 0), ([0, 0], fun _ => 1), ([0, 7, 0], fun _ => 2), ([0, 0, 9], fun _ => 3)]

def allOpen : World := ⟨FDITEM.new, fun _ => true, fun _ => [], fun _ => TIMER.empty⟩

theorem process_connection_decodes_stream_four :
    ∃ s' b', processChunks (registerConnection 1) fourChunks allOpen (RecvBuffer.zero _) =
        .ok (s', b') ∧
      s'.interest 1 = [6, 7] ∧
      (∃ times, times.length = 2 ∧ s'.timer 1 = (allOpen.timer 1).addTimers [6, 7] times) ∧
      b'.count = 1 ∧ b'.buff.take 1 = [9] :=
  process_connection_decodes_stream 1 fourChunks allOpen (RecvBuffer.zero _) rfl
    ⟨by decide, by decide, by decide, by decide, trivial⟩ (canRegister_iff.mpr (by decide))

end FourChunks

end LinuxPrograms.C1000k
