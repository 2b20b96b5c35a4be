import LinuxPrograms.C1000kHandoff

/-! The bound on a worker's send buffer. `dispatch_conn` appends a batch whatever the buffer
already holds, so the append is in bounds exactly while what a worker was assigned exceeds what
its socket has taken by no more than the buffer. -/
namespace LinuxPrograms.C1000k
open Lib

/-- Whenever `dispatch_conn` is about to append a node to a worker's buffer, the append stays
inside `SendFdBuff::buff`. -/
def AppendInBounds (cfg : Config) (s : Server) : Prop :=
  ∀ node rest, s.dispatch = .work (node :: rest) → cfg.channel s.sum ∈ cfg.workers →
    0 ≤ (s.sendfdBuff (cfg.peer (cfg.channel s.sum))).needSendLen ∧
      (s.sendfdBuff (cfg.peer (cfg.channel s.sum))).needSendLen+node.acceptedFdLen ≤ sendBuffSize

/-- The bytes of the batches assigned to the channel so far, and of the next one, exceed what
the socket has taken by at most the size of the buffer. -/
def BacklogFits (cfg : Config) (s : Server) : Prop :=
  ∀ node rest, s.dispatch = .work (node :: rest) → cfg.channel s.sum ∈ cfg.workers →
    ((s.assigned (cfg.channel s.sum)).map (·.acceptedFdLen)).sum+node.acceptedFdLen ≤
      sendBuffSize+(s.written (cfg.peer (cfg.channel s.sum))).length

theorem SendFdBuff.pending_length (b : SendFdBuff) (h : b.needSendLen ≤ sendBuffSize) :
    b.pending.length = b.needSendLen.toNat := by
  simp only [pending, slice, Int.toNat_zero, List.drop_zero, List.length_take, b.size_eq]
  omega

/-- Between two sends, a buffer holds what was assigned less what was taken. -/
theorem HandoffInv.needSendLen_eq {cfg : Config} {s : Server} (h : HandoffInv cfg s)
    {l : List AcceptedFD} (hd : s.dispatch = .work l) {i : ℕ} (hi : i ∈ cfg.workers) :
    ((s.written (cfg.peer i)).length : ℤ)+(s.sendfdBuff (cfg.peer i)).needSendLen =
      ((s.assigned i).map (·.acceptedFdLen)).sum := by
  have hbytes := congrArg List.length (h.bytes i ((cfg.mem_workers i).mp hi))
  have hsize := h.buffers.size (cfg.peer i)
  have hun : s.unsent (cfg.peer i) = (s.sendfdBuff (cfg.peer i)).pending := by
    unfold Server.unsent
    rw [hd]
  have hlen : ((s.assigned i).flatMap (·.acceptedFdBuff)).length =
      ((s.assigned i).map (·.acceptedFdLen)).sum := by
    rw [List.length_flatMap]
    exact congrArg List.sum (List.map_congr_left fun node _ => node.len_eq)
  rw [List.length_append, hun, SendFdBuff.pending_length _ hsize.2, hlen] at hbytes
  omega

theorem appendInBounds_iff {cfg : Config} {s : Server} (h : HandoffInv cfg s) :
    AppendInBounds cfg s ↔ BacklogFits cfg s := by
  refine forall_congr' fun node => forall_congr' fun rest => forall_congr' fun hd =>
    forall_congr' fun hi => ?_
  have heq := h.needSendLen_eq hd hi
  have hsize := h.buffers.size (cfg.peer (cfg.channel s.sum))
  constructor
  · rintro ⟨_, hle⟩
    omega
  · intro hle
    exact ⟨hsize.1, by omega⟩

/-- In every run, all appends stay inside the buffers exactly when every worker's backlog
fits. -/
theorem append_in_bounds_iff (cfg : Config) (room : ℕ → ℕ) (tr : List (Server × Act)) (s : Server)
    (h : Run (next cfg) (setup cfg room) tr s) :
    Throughout (AppendInBounds cfg) tr s ↔ Throughout (BacklogFits cfg) tr s := by
  have hmem : ∀ p ∈ tr, AppendInBounds cfg p.1 ↔ BacklogFits cfg p.1 :=
    fun p hp => appendInBounds_iff (reachable_inv (h.reachable_of_mem p hp))
  refine and_congr (forall_congr' fun p => forall_congr' fun hp => hmem p hp) ?_
  exact appendInBounds_iff (reachable_inv ⟨tr, h⟩)

theorem append_in_bounds_iff_short_send :
    Throughout (AppendInBounds twoCpus)
        (trace (next twoCpus) (setup twoCpus fun _ => 2) shortSendActs) shortSendServer ↔
      Throughout (BacklogFits twoCpus)
        (trace (next twoCpus) (setup twoCpus fun _ => 2) shortSendActs) shortSendServer :=
  append_in_bounds_iff twoCpus (fun _ => 2) _ shortSendServer (.of_exec (Option.some_get _).symm)

/-! A worker that reads nothing while 30 full batches of descriptors arrive. -/

/-- Batch `k` of the descriptors 6, 7, 8, and so on. -/
def fullBatch (k : ℕ) : List ℕ := List.range' (6+maxAcceptSize*k) maxAcceptSize

/-- The `k` batches so far wait in the buffer of the one worker. -/
structure SlowWorker (k : ℕ) (s : Server) : Prop where
  reachable : Reachable (next twoCpus) (setup twoCpus fun _ => 0) s
  main : ∃ ret, s.main = .accept 3 [] ret
  dispatch : s.dispatch = .wait
  list : s.acceptedFDlist = []
  need : (s.sendfdBuff 4).needSendLen = 4096*k

theorem twoCpus_channel (sum : ℕ) : twoCpus.channel sum = 1 := by
  change sum % 1+1 = 1
  omega

/-- One more client. -/
theorem accept_one {s : Server} {fdBuff : List ℕ} {ret : Point} {fd : ℕ}
    (hs : s.main = .accept 3 fdBuff ret) (hpos : 0 < fd) (hmax : fd < maxFd) :
    next twoCpus s (.accept (.fd fd)) = some { s with
      accepted := s.accepted ++ [fd]
      main := if (fdBuff ++ [fd]).length < maxAcceptSize then .accept 3 (fdBuff ++ [fd]) ret
        else .push 3 (fdBuff ++ [fd]) true ret } := by
  have hzero : fd ≠ 0 := by omega
  have hfits : ¬ maxFd ≤ fd := by omega
  simp only [next, hs, acceptStep, if_neg hzero, if_neg hfits]

/-- `n` more clients, with descriptors from `fd` on, fill the local batch. -/
theorem accept_many (n fd : ℕ) (fdBuff : List ℕ) (ret : Point) (s : Server)
    (hs : s.main = .accept 3 fdBuff ret) (hn : fdBuff.length+n < maxAcceptSize) (hpos : 0 < fd)
    (hmax : fd+n ≤ maxFd) :
    ∃ acc, Reachable (next twoCpus) s { s with
      main := .accept 3 (fdBuff ++ List.range' fd n) ret, accepted := acc } := by
  induction n generalizing fd fdBuff s with
  | zero =>
    refine ⟨s.accepted, ?_⟩
    rw [List.range'_zero, List.append_nil, ← hs]
    exact .refl s
  | succ n ih =>
    have hlen : (fdBuff ++ [fd]).length = fdBuff.length+1 := List.length_append
    have hstep := accept_one hs hpos (by omega)
    rw [if_pos (by omega)] at hstep
    obtain ⟨acc, hacc⟩ := ih (fd+1) (fdBuff ++ [fd]) { s with
      accepted := s.accepted ++ [fd], main := .accept 3 (fdBuff ++ [fd]) ret } rfl (by omega)
      (by omega) (by omega)
    refine ⟨acc, ((Reachable.refl s).tail hstep).trans ?_⟩
    rwa [List.append_assoc, List.singleton_append, ← List.range'_succ] at hacc

/-- A full batch of clients comes to stand before `dispatch_conn`. -/
theorem full_batch_detached {k : ℕ} {s : Server} (h : SlowWorker k s) (hk : k < 30) :
    ∃ t, Reachable (next twoCpus) (setup twoCpus fun _ => 0) t ∧
      (∃ ret, t.main = .accept 3 [] ret) ∧ t.acceptedFDlist = [] ∧
      t.dispatch = .work [.ofBatch (fullBatch k)] ∧ t.sendfdBuff = s.sendfdBuff := by
  obtain ⟨ret, hmain⟩ := h.main
  have hdescriptors : 6+maxAcceptSize*k+1023 < maxFd := by
    rw [maxAcceptSize, maxFd]
    omega
  obtain ⟨acc, hacc⟩ := accept_many 1023 (6+maxAcceptSize*k) [] ret s hmain (by decide) (by omega)
    (by omega)
  rw [List.nil_append] at hacc
  have hfull : List.range' (6+maxAcceptSize*k) 1023 ++ [6+maxAcceptSize*k+1023] = fullBatch k :=
    (List.range'_1_concat ..).symm
  have hlen : ¬ (fullBatch k).length < maxAcceptSize := by
    rw [fullBatch, List.length_range']
    omega
  have hlast := accept_one (s := { s with
    main := .accept 3 (List.range' (6+maxAcceptSize*k) 1023) ret, accepted := acc }) rfl
    (Nat.zero_lt_of_lt (Nat.lt_add_left _ (by decide : 0 < 1023))) hdescriptors
  rw [hfull, if_neg hlen] at hlast
  have hpush : next twoCpus { s with
      main := .push 3 (fullBatch k) true ret
      accepted := acc ++ [6+maxAcceptSize*k+1023] } .push =
      some { s with
        main := .accept 3 [] ret
        accepted := acc ++ [6+maxAcceptSize*k+1023]
        acceptedFDlist := [.ofBatch (fullBatch k)] } := by
    simp only [next, pushStep, h.list, if_true]
  have hdetach : next twoCpus { s with
      main := .accept 3 [] ret
      accepted := acc ++ [6+maxAcceptSize*k+1023]
      acceptedFDlist := [.ofBatch (fullBatch k)] } .detach =
      some { s with
        main := .accept 3 [] ret
        accepted := acc ++ [6+maxAcceptSize*k+1023]
        acceptedFDlist := []
        dispatch := .work [.ofBatch (fullBatch k)] } := by
    simp only [next, h.dispatch]
  exact ⟨_, (((h.reachable.trans hacc).tail hlast).tail hpush).tail hdetach, ⟨ret, rfl⟩, rfl, rfl,
    rfl⟩

theorem fullBatch_len (k : ℕ) : (AcceptedFD.ofBatch (fullBatch k)).acceptedFdLen = 4096 := by
  change 4*(fullBatch k).length = 4096
  rw [fullBatch, List.length_range']
  rfl

/-- A `send` that returns -1 ends the loop of `sendConnectionsToWorker`. -/
theorem failed_send_settles {cfg : Config} {s : Server} {f : SendFrame} {rest : List AcceptedFD}
    (hd : s.dispatch = .send f rest) (hf : f.More) :
    Reachable (next cfg) s { s with
      sendfdBuff := Function.update s.sendfdBuff f.fd
        ((s.sendfdBuff f.fd).settle f.needSend f.sended)
      sum := s.sum+1
      dispatch := .loop rest } := by
  have hcount : f.More ∧ -1 ≤ f.needSend-f.sended ∧ ((0 : ℤ) < -1 → -1 ≤ (s.room f.fd : ℤ)) :=
    ⟨hf, by have := hf.2; omega, by omega⟩
  have hsend : next cfg s (.send (-1)) =
      some { s with dispatch := .send { f with broke := true } rest } := by
    simp only [next, hd, sendStep, if_pos hcount]
    rfl
  have hsettle : next cfg { s with dispatch := .send { f with broke := true } rest } .settle =
      some { s with
        sendfdBuff := Function.update s.sendfdBuff f.fd
          ((s.sendfdBuff f.fd).settle f.needSend f.sended)
        sum := s.sum+1
        dispatch := .loop rest } := by
    have hdone : ¬ SendFrame.More { f with broke := true } := fun h => Bool.noConfusion h.1
    simp only [next, settleStep, if_neg hdone]
    rfl
  exact ((Reachable.refl s).tail hsend).tail hsettle

/-- The batch is appended, nothing of it is sent, and the loop ends. -/
theorem SlowWorker.step {k : ℕ} {s : Server} (h : SlowWorker k s) (hk : k < 29) :
    ∃ t, SlowWorker (k+1) t := by
  obtain ⟨t, hreach, hmain, hlist, hdispatch, hbuff⟩ := full_batch_detached h (by omega)
  have hneed : (t.sendfdBuff 4).needSendLen = 4096*k := by rw [hbuff, h.need]
  have hlen := fullBatch_len k
  have hfit : (t.sendfdBuff 4).Fits (.ofBatch (fullBatch k)) := by
    refine ⟨by omega, ?_⟩
    rw [hneed, hlen, sendBuffSize]
    push_cast
    omega
  set b := (t.sendfdBuff 4).append _ hfit with hb
  have hbneed : b.needSendLen = 4096*k+4096 := by
    rw [hb]
    simp only [SendFdBuff.append]
    omega
  -- the append fits, and the `send` that follows it fails
  have happend : next twoCpus t .append = some { t with
      sendfdBuff := Function.update t.sendfdBuff 4 b
      assigned := Function.update t.assigned 1
        (t.assigned 1 ++ [.ofBatch (fullBatch k)])
      dispatch := .send ⟨4, b.needSendLen, 0, false⟩ [] } := by
    simp only [next, hdispatch, appendStep, twoCpus_channel]
    exact dif_pos ⟨by decide, hfit⟩
  have hmore : SendFrame.More ⟨4, b.needSendLen, 0, false⟩ := ⟨rfl, by dsimp only; omega⟩
  refine ⟨_, (hreach.tail happend).trans (failed_send_settles rfl hmore), hmain, rfl, hlist, ?_⟩
  simp only [Function.update_self, SendFdBuff.settle]
  omega

/-- The batches pile up as long as the buffer has room for them. -/
theorem exists_slowWorker (k : ℕ) (hk : k ≤ 29) : ∃ s, SlowWorker k s := by
  induction k with
  | zero =>
    have hexec : exec (next twoCpus) (setup twoCpus fun _ => 0)
        [.epollWait [⟨3, .inEt⟩], .mainStep] = some { setup twoCpus fun _ => 0 with
          main := .accept 3 [] ⟨.write, ⟨3, .inEt⟩, []⟩ } := rfl
    exact ⟨_, .of_exec hexec, ⟨_, rfl⟩, rfl, rfl, rfl⟩
  | succ k ih =>
    obtain ⟨s, hs⟩ := ih (by omega)
    exact hs.step hk

/-- The thirtieth full batch does not fit any more. -/
theorem append_not_always_in_bounds :
    ¬ ∀ (cfg : Config) (room : ℕ → ℕ) (s : Server), Reachable (next cfg) (setup cfg room) s →
      AppendInBounds cfg s := by
  intro hall
  obtain ⟨s, hs⟩ := exists_slowWorker 29 (by decide)
  obtain ⟨t, hreach, _, _, hdispatch, hbuff⟩ := full_batch_detached hs (by decide)
  have hin := hall twoCpus _ t hreach _ _ hdispatch (by rw [twoCpus_channel]; decide)
  rw [twoCpus_channel, fullBatch_len] at hin
  have hneed : (t.sendfdBuff 4).needSendLen = 4096*29 := by rw [hbuff, hs.need]; rfl
  have hle : (t.sendfdBuff 4).needSendLen+(4096 : ℕ) ≤ sendBuffSize := hin.2
  rw [hneed] at hle
  exact absurd hle (by decide)

end LinuxPrograms.C1000k
