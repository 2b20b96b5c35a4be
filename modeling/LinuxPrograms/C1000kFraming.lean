import LinuxPrograms.C1000kHandoff
import LinuxPrograms.C1000kWorker

/-! Framing of the hand-off stream on the worker's side. `readfun_getConnections` keeps the
bytes of an incomplete descriptor in its locals, and its assertion wants every `recv` to complete
one, so the stream is read correctly exactly when every call ends on whole descriptors and every
`recv` completes at least one. -/
namespace LinuxPrograms.C1000k
open Lib

def RecvRet.isData : RecvRet → Bool
  | .data _ _ => true
  | .other => false

/-- From a buffer of `count` bytes on, every `recv` completes a descriptor and the last one leaves
none incomplete. -/
def WholeReads : ℕ → List RecvRet → Prop
  | count, [] => count = 0
  | count, .data bytes _ :: recvs =>
    4 ≤ count+bytes.length ∧ WholeReads ((count+bytes.length) % 4) recvs
  | _, .other :: _ => False

section Calls

variable {σ : Type*} {register : TimeValue → ℕ → σ → Except Stop σ}

/-- A call that returns met the first half of the condition. -/
theorem wholeReads_of_ok {recvs : List RecvRet} {buffer : List UInt8} {s s' : σ}
    (hb : buffer.length < 4) (h : recvLoop register recvs buffer s = .ok s') :
    WholeReads buffer.length recvs ↔ (buffer ++ received recvs).length % 4 = 0 := by
  fun_induction recvLoop register recvs buffer s with
  | case1 buffer s =>
    rw [WholeReads, received, List.append_nil]
    omega
  | case4 bytes now recvs buffer s hsome hlen s₁ buffer' hproc ih =>
    obtain ⟨_, rfl⟩ := processConnection_ok hproc
    have hrest := leftover_length 4 (buffer ++ bytes)
    have hlt : (leftover 4 (buffer ++ bytes)).length < 4 := by omega
    have hih := ih hlt h
    rw [List.length_append, hrest, List.length_append] at hih
    rw [List.length_append] at hlen
    rw [WholeReads, received, List.length_append, List.length_append, hih]
    omega
  | case2 => cases h
  | case3 => cases h
  | case5 => cases h
  | case6 => cases h

theorem processConnection_error {now : ℕ → TimeValue} {k : ℕ} {buffer : List UInt8} {s : σ}
    (hreg : ∀ t fd s, register t fd s ≠ .error .assertFalse) :
    processConnection register now k buffer s ≠ .error .assertFalse := by
  fun_induction processConnection register now k buffer s with
  | case1 k b₀ b₁ b₂ b₃ buffer s s₁ hok ih => exact ih
  | case2 k b₀ b₁ b₂ b₃ buffer s e herr =>
    intro h
    cases h
    exact hreg _ _ _ herr
  | case3 =>
    intro h
    cases h

/-- A call that runs into the assertion did not. -/
theorem not_wholeReads_of_assert {recvs : List RecvRet} {buffer : List UInt8} {s : σ}
    (hreg : ∀ t fd s, register t fd s ≠ .error .assertFalse)
    (h : recvLoop register recvs buffer s = .error .assertFalse) :
    ¬ WholeReads buffer.length recvs := by
  fun_induction recvLoop register recvs buffer s with
  | case1 => cases h
  | case2 => exact id
  | case3 => cases h
  | case4 bytes now recvs buffer s hsome hlen s₁ buffer' hproc ih =>
    obtain ⟨_, rfl⟩ := processConnection_ok hproc
    have hih := ih h
    rw [leftover_length, List.length_append] at hih
    exact fun hw => hih hw.2
  | case5 bytes now recvs buffer s hsome hlen e hproc =>
    cases h
    exact (processConnection_error hreg hproc).elim
  | case6 bytes now recvs buffer s hsome hlen =>
    rw [List.length_append] at hlen
    exact fun hw => hlen hw.1

end Calls

section Stream

variable [LinearOrder VoidPtr]

/-- A worker reading its end of the socketpair: how many bytes it has received, the descriptors it
has registered, and whether it has run into `assert(false)`. -/
structure Channel [LinearOrder VoidPtr] where
  taken : ℕ
  registered : List ℕ
  world : World
  failed : Bool

def Channel.start (world : World) : Channel := ⟨0, [], world, false⟩

/-- A call of `readfun_getConnections`, or whatever else the program does between two calls. -/
inductive ChannelAct [LinearOrder VoidPtr]
  | call (recvs : List RecvRet)
  | other (world : World)

/-- `process_connection`'s work on one descriptor, with a record of the descriptors. -/
def recordRegistration (w : ℕ) (timeStamp : TimeValue) (fd : ℕ) (s : List ℕ × World) :
    Except Stop (List ℕ × World) :=
  (registerConnection w timeStamp fd s.2).map fun world => (s.1 ++ [fd], world)

/-- The bytes of `stream` arrive in pieces of any size; the other end stays open. -/
def channelStep (stream : List UInt8) (w : ℕ) (s : Channel) : ChannelAct → Option Channel
  | .call recvs =>
    if s.failed = false ∧ recvs.all RecvRet.isData ∧ received recvs <+: stream.drop s.taken then
      match readfunGetConnections (recordRegistration w) recvs (s.registered, s.world) with
      | .ok (registered, world) =>
        some ⟨s.taken+(received recvs).length, registered, world, false⟩
      | .error .assertFalse =>
        some { s with taken := s.taken+(received recvs).length, failed := true }
      | .error _ => none
    else none
  | .other world => some { s with world := world }

/-- The registered descriptors are those completely received, no byte received is neither part of
one nor kept for the next call, and the assertion was not reached. -/
structure Framed (fds : List ℕ) (stream : List UInt8) (s : Channel) : Prop where
  registered : s.registered = fds.take (s.taken / 4)
  kept : encodeInts s.registered = stream.take s.taken
  failed : s.failed = false

/-- The condition on a call. -/
def WholeCall : ChannelAct → Prop
  | .call recvs => WholeReads 0 recvs
  | .other _ => True

theorem recordRegistration_ne_assert (w : ℕ) (t : TimeValue) (fd : ℕ) (s : List ℕ × World) :
    recordRegistration w t fd s ≠ .error .assertFalse := by
  unfold recordRegistration registerConnection
  split
  · nofun
  · split
    · nofun
    · split <;> nofun

theorem recordRegistration_registersAll {w : ℕ} {fds : List ℕ} {s s' : List ℕ × World}
    (h : RegistersAll (recordRegistration w) fds s s') : s'.1 = s.1 ++ fds := by
  refine h.appends fun t fd s s' hreg => ?_
  unfold recordRegistration at hreg
  cases hr : registerConnection w t fd s.2 with
  | ok world =>
    rw [hr] at hreg
    cases hreg
    rfl
  | error e =>
    rw [hr] at hreg
    cases hreg

/-- What a step of the channel does. -/
theorem channelStep_cases {stream : List UInt8} {w : ℕ} {s s' : Channel} {a : ChannelAct}
    (h : channelStep stream w s a = some s') :
    (∃ world, a = .other world ∧ s' = { s with world := world }) ∨
      ∃ recvs, a = .call recvs ∧ received recvs <+: stream.drop s.taken ∧
        s'.taken = s.taken+(received recvs).length ∧
        ((s'.failed = true ∧ ¬ WholeReads 0 recvs) ∨
          (s'.failed = false ∧ s'.registered = s.registered ++ decodeInts (received recvs) ∧
            (WholeReads 0 recvs ↔ (received recvs).length % 4 = 0))) := by
  cases a with
  | other world => exact Or.inl ⟨world, rfl, (Option.some.inj h).symm⟩
  | call recvs =>
    refine Or.inr ⟨recvs, rfl, ?_⟩
    simp only [channelStep] at h
    split at h
    · rename_i hguard
      refine ⟨hguard.2.2, ?_⟩
      split at h
      · rename_i registered world hcall
        cases h
        have hall := recordRegistration_registersAll (recvLoop_ok (by decide) hcall)
        have hwhole := wholeReads_of_ok (by decide) hcall
        exact ⟨rfl, Or.inr ⟨rfl, hall, hwhole⟩⟩
      · rename_i hcall
        cases h
        exact ⟨rfl, Or.inl ⟨rfl, not_wholeReads_of_assert (recordRegistration_ne_assert w) hcall⟩⟩
      · cases h
    · cases h

theorem channelStep_taken_le {stream : List UInt8} {w : ℕ} {s s' : Channel} {a : ChannelAct}
    (hs : s.taken ≤ stream.length) (h : channelStep stream w s a = some s') :
    s'.taken ≤ stream.length := by
  rcases channelStep_cases h with ⟨world, rfl, rfl⟩ | ⟨recvs, rfl, hpre, htaken, _⟩
  · exact hs
  · have hlen := hpre.length_le
    rw [List.length_drop] at hlen
    omega

/-- A call keeps the stream framed exactly when it reads whole descriptors. -/
theorem framed_step {fds : List ℕ} {stream : List UInt8} (hfds : ∀ fd ∈ fds, fd < 2^32)
    (hstream : stream <+: encodeInts fds) {w : ℕ} {s s' : Channel} {a : ChannelAct}
    (hle : s.taken ≤ stream.length) (hs : Framed fds stream s)
    (h : channelStep stream w s a = some s') : Framed fds stream s' ↔ WholeCall a := by
  have hle' := channelStep_taken_le hle h
  rcases channelStep_cases h with ⟨world, rfl, rfl⟩ | ⟨recvs, rfl, hpre, htaken, hcall⟩
  · exact iff_of_true ⟨hs.registered, hs.kept, hs.failed⟩ trivial
  rcases hcall with ⟨hfailed, hw⟩ | ⟨hfailed, hreg, hw⟩
  · exact iff_of_false (fun hf => Bool.noConfusion (hfailed.symm.trans hf.failed)) hw
  set bytes := received recvs
  -- the bytes received so far, and the descriptors complete in them
  have htake : stream.take s'.taken = encodeInts s.registered ++ bytes := by
    rw [htaken, List.take_add, ← hs.kept, ← List.prefix_iff_eq_take.mp hpre]
  have hcommon : (encodeInts fds).take s'.taken = stream.take s'.taken := by
    obtain ⟨rest, hrest⟩ := hstream
    rw [← hrest, List.take_append_of_le_length hle']
  have hregistered : s'.registered = fds.take (s'.taken / 4) := by
    have hlt : ∀ fd ∈ s.registered, fd < 2^32 := by
      intro fd hfd
      rw [hs.registered] at hfd
      exact hfds fd (List.mem_of_mem_take hfd)
    have hdecode := decodeInts_take_encodeInts fds hfds s'.taken
    rw [hcommon, List.length_take, Nat.min_eq_left hle', htake,
      decodeInts_encodeInts_append _ hlt] at hdecode
    exact hreg.trans hdecode
  -- nothing is lost exactly when the call left no incomplete descriptor
  have hsplit := encodeInts_decodeInts bytes
  have hleft := leftover_length 4 bytes
  have hkept : encodeInts s'.registered = stream.take s'.taken ↔ bytes.length % 4 = 0 := by
    rw [htake, hreg, encodeInts_append, List.append_right_inj, ← hleft, List.length_eq_zero_iff]
    constructor
    · intro heq
      rw [heq] at hsplit
      exact List.append_right_eq_self.mp hsplit
    · intro hnil
      rwa [hnil, List.append_nil] at hsplit
  change Framed fds stream s' ↔ WholeReads 0 recvs
  rw [hw, ← hkept]
  exact ⟨fun hf => hf.kept, fun hk => ⟨hregistered, hk, hfailed⟩⟩

/-- In every run of a worker on the bytes the dispatcher has written to its socket, the hand-off
is framed after every call exactly when every call reads whole descriptors. -/
theorem framed_iff_whole_calls (cfg : Config) (room : ℕ → ℕ) (server : Server) (i : ℕ)
    (hserver : Reachable (next cfg) (setup cfg room) server) (hi : i ∈ cfg.workers)
    (world : World) (tr : List (Channel × ChannelAct)) (s : Channel)
    (h : Run (channelStep (server.written (cfg.peer i)) i) (.start world) tr s) :
    Throughout (Framed ((server.assigned i).flatMap AcceptedFD.descriptors)
        (server.written (cfg.peer i))) tr s ↔ ∀ p ∈ tr, WholeCall p.2 := by
  have hinv := reachable_inv hserver
  have hnodes := hinv.nodes.assigned i
  have hstream : server.written (cfg.peer i) <+:
      encodeInts ((server.assigned i).flatMap AcceptedFD.descriptors) := by
    rw [← flatMap_acceptedFdBuff hnodes, ← hinv.bytes i ((cfg.mem_workers i).mp hi)]
    exact List.prefix_append _ _
  -- the step lemma holds as long as no more was taken than the stream has
  exact h.throughout_iff (fun _ a => WholeCall a)
    (fun _ _ _ hle hstep => channelStep_taken_le hle hstep)
    (fun _ _ _ hle hs hstep => framed_step (descriptors_lt hnodes) hstream hle hs hstep)
    (Nat.zero_le _) ⟨by simp [Channel.start], by simp [Channel.start, encodeInts], rfl⟩

end Stream

section Clients

attribute [local instance] VoidPtr.order

/-- Descriptors 6, 7 and 8 are open, and worker 1 listens on its end of the socketpair. -/
def clientsWorld : World where
  gFDITEM := FDITEM.new
  opened := fun fd => decide (5 ≤ fd ∧ fd ≤ 8)
  interest := fun w => if w = 1 then [5] else []
  timer := fun _ => .empty

/-- The descriptors of three clients are sent whole. -/
def wholeSendServer : Server :=
  (exec (next twoCpus) (setup twoCpus fun _ => 100)
    [.epollWait [⟨3, .inEt⟩], .mainStep, .accept (.fd 6), .accept (.fd 7), .accept (.fd 8),
      .accept (.error .EAGAIN), .push, .detach, .append, .send 12, .settle]).get rfl

/-- Two calls of the worker; the second descriptor comes in two pieces. -/
def wholeCalls : List ChannelAct :=
  [.call [.data [6, 0, 0, 0, 7] fun _ => 0, .data [0, 0, 0] fun _ => 0],
    .call [.data [8, 0, 0, 0] fun _ => 0]]

def wholeCallsChannel : Channel :=
  (exec (channelStep (wholeSendServer.written 4) 1) (.start clientsWorld) wholeCalls).get rfl

theorem framed_iff_whole_calls_three_clients :
    wholeCallsChannel.registered = [6, 7, 8] ∧
      Throughout (Framed ((wholeSendServer.assigned 1).flatMap AcceptedFD.descriptors)
          (wholeSendServer.written (twoCpus.peer 1)))
        (trace (channelStep (wholeSendServer.written 4) 1) (.start clientsWorld) wholeCalls)
        wholeCallsChannel := by
  refine ⟨rfl, (framed_iff_whole_calls twoCpus (fun _ => 100) wholeSendServer 1
    (.of_exec (Option.some_get _).symm) (by decide) clientsWorld _ _
    (.of_exec (Option.some_get _).symm)).mpr ?_⟩
  refine List.forall_mem_cons.mpr ⟨?_, List.forall_mem_singleton.mpr ?_⟩
  · simp [WholeCall, WholeReads]
  · simp [WholeCall, WholeReads]

/-- The worker after a `recv` that returned only the two bytes the socket has taken. -/
def twoByteChannel : Channel :=
  (channelStep (shortSendServer.written 4) 1 (.start clientsWorld)
    (.call [.data [6, 0] fun _ => 0])).get rfl

/-- A `recv` that returns two bytes runs into the assertion. -/
theorem handoff_not_always_framed :
    ¬ ∀ (cfg : Config) (room : ℕ → ℕ) (server : Server) (i : ℕ),
      Reachable (next cfg) (setup cfg room) server → i ∈ cfg.workers →
      ∀ (world : World) (tr : List (Channel × ChannelAct)) (s : Channel),
        Run (channelStep (server.written (cfg.peer i)) i) (.start world) tr s →
        Throughout (Framed ((server.assigned i).flatMap AcceptedFD.descriptors)
          (server.written (cfg.peer i))) tr s := by
  intro hall
  have h := hall twoCpus _ shortSendServer 1 shortSendServer_reachable (by decide) clientsWorld
    [(.start clientsWorld, ChannelAct.call [.data [6, 0] fun _ => 0])] twoByteChannel
    (Run.single (Option.some_get _).symm)
  exact Bool.noConfusion h.2.failed

end Clients

end LinuxPrograms.C1000k
