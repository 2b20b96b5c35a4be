import LinuxPrograms.LibRecords
import LinuxPrograms.PollServerReceive

/-! The bytes `TransmitPendingLoop` sends. A pass tests the address of the send buffer, which is
never null, so a connection with nothing to send is sent the byte that ends the empty string. -/
namespace LinuxPrograms.PollServer
open Lib

/-- The bytes of `data` that the calls of `send` take. -/
def sendBytes : List SendRet → List UInt8 → List UInt8
  | .count n :: sends, data => data.take n ++ sendBytes sends (data.drop n)
  | _ :: sends, data => sendBytes sends data
  | [], _ => []

/-- `strlen(buffer)+1` bytes from the start of the buffer. -/
def bytesToSend (buffer : List UInt8) : List UInt8 := buffer.take (strlen buffer+1)

/-- What the round of slot `i` sends. -/
def sentInRound (sends : ℕ → List SendRet) (s : Server) (i : ℕ) : List UInt8 :=
  let c := s.pClients i
  if c.inUse ∧ watchedWith s c.socket POLLOUT = some true ∧ c.socket ≠ -1 then
    sendBytes (sends i) (bytesToSend c.pendingSendBuffer)
  else []

/-- The server, the bytes sent to the socket of each slot, and those its responses call for. -/
structure Wire where
  server : Server
  sent : ℕ → List UInt8
  due : ℕ → List UInt8

def Wire.start (s : Server) : Wire := ⟨s, fun _ => [], fun _ => []⟩

/-- A round of the pass with the bytes it sends. -/
def transmitPassStep (sends : ℕ → List SendRet) (w : Wire) (i : ℕ) : Option Wire :=
  (transmitStep sends w.server i).map fun s => { w with
    server := s
    sent := Function.update w.sent i (w.sent i ++ sentInRound sends w.server i) }

/-- `TransmitPendingLoop` with the bytes it sends. -/
def transmitPass (w : Wire) (sends : ℕ → List SendRet) : Option Wire :=
  slots.foldlM (transmitPassStep sends) w

theorem foldlM_transmitPassStep (sends : ℕ → List SendRet) (l : List ℕ) (w : Wire) :
    (l.foldlM (transmitPassStep sends) w).map Wire.server =
      l.foldlM (transmitStep sends) w.server := by
  induction l generalizing w with
  | nil => rfl
  | cons i l ih =>
    rw [List.foldlM_cons, List.foldlM_cons]
    cases h : transmitStep sends w.server i with
    | none => simp [transmitPassStep, h]
    | some s => simp [transmitPassStep, h, ih]

/-- Without the record of the bytes the pass is `TransmitPendingLoop`. -/
theorem transmitPass_server (w : Wire) (sends : ℕ → List SendRet) :
    (transmitPass w sends).map Wire.server = transmitPendingLoop w.server sends :=
  foldlM_transmitPassStep sends slots w

/-- What is placed in the send buffers before a pass, and what `send` returns in it. The empty
string stands for no response. -/
structure Round where
  response : ℕ → List UInt8
  sends : ℕ → List SendRet

/-- A string that fits in the send buffer. -/
def IsResponse (r : List UInt8) : Prop := r.length+1 ≤ netBufferSize ∧ 0 ∉ r

instance (r : List UInt8) : Decidable (IsResponse r) := by
  unfold IsResponse
  infer_instance

/-- Partial sends, and no more transient errors than `TransmitPending` retries. -/
def Tolerated (sends : List SendRet) : Prop :=
  sends.count .again ≤ 3 ∧ SendRet.error ∉ sends ∧ SendRet.count 0 ∉ sends

instance (sends : List SendRet) : Decidable (Tolerated sends) := by
  unfold Tolerated
  infer_instance

/-- `strcpy` of the response into the buffer of a connection in use. -/
def Connection.place (c : Connection) (r : List UInt8) : Connection :=
  if c.inUse then { c with pendingSendBuffer := copyTo c.pendingSendBuffer 0 (r ++ [0]) } else c

/-- The bytes a response calls for. -/
def responseBytes (r : List UInt8) : List UInt8 := if r = [] then [] else r ++ [0]

def Wire.place (w : Wire) (response : ℕ → List UInt8) : Wire where
  server := { w.server with pClients := fun i => (w.server.pClients i).place (response i) }
  sent := w.sent
  due := fun i => w.due i ++ responseBytes (response i)

/-- Responses are placed, and a pass sends them; what `send` returns for slot `i` is tolerated. -/
def nextWire (i : ℕ) (w : Wire) (round : Round) : Option Wire :=
  if IsResponse (round.response i) ∧ Tolerated (round.sends i) then
    transmitPass (w.place round.response) round.sends
  else none

/-- Slot `i` has an open connection with nothing to send. -/
structure Connected (i : ℕ) (s : Server) : Prop where
  inUse : (s.pClients i).inUse = true
  socket : (s.pClients i).socket ≠ -1
  empty : (s.pClients i).pendingSendBuffer = List.replicate netBufferSize 0

/-! What one call of `TransmitPending` sends. -/

theorem sendBytes_nil (sends : List SendRet) : sendBytes sends [] = [] := by
  induction sends with
  | nil => rfl
  | cons ret sends ih => cases ret <;> simp [sendBytes, ih]

/-- When the loop ends everything has been sent. -/
theorem sendBytes_of_ended {sends : List SendRet} {data : List UInt8} {retry : ℕ}
    {status status' : Bool} (h : sendLoop sends data.length retry status = some status') :
    sendBytes sends data = data := by
  induction sends generalizing data retry status with
  | nil =>
    cases data with
    | nil => rfl
    | cons => cases h
  | cons ret sends ih =>
    cases data with
    | nil => exact sendBytes_nil _
    | cons b data =>
      cases ret with
      | count n =>
        cases n with
        | zero =>
          have hrest : sendLoop sends (b :: data).length retry false = some status' := h
          exact ih hrest
        -- some bytes went out, and the loop goes on with the others
        | succ n =>
          rw [List.length_cons, sendLoop] at h
          split at h
          · rw [← List.length_drop] at h
            rw [sendBytes, List.take_succ_cons, List.drop_succ_cons, ih h, List.cons_append,
              List.take_append_drop]
          · cases h
      | again =>
        have hrest : sendLoop sends (b :: data).length (retry+1)
            (if 3 < retry+1 then false else status) = some status' := h
        exact ih hrest
      | error =>
        have hrest : sendLoop sends (b :: data).length retry false = some status' := h
        exact ih hrest

/-- The calls of `send` that are tolerated leave the status alone. -/
theorem sendLoop_status {sends : List SendRet} {n retry : ℕ} {status : Bool}
    (hagain : retry+sends.count .again ≤ 3) (herror : SendRet.error ∉ sends)
    (hzero : SendRet.count 0 ∉ sends) (h : sendLoop sends n retry true = some status) :
    status = true := by
  induction sends generalizing n retry with
  | nil =>
    cases n <;> cases h
    rfl
  | cons ret sends ih =>
    rw [List.mem_cons, not_or] at herror hzero
    cases n with
    | zero =>
      cases h
      rfl
    | succ n =>
      cases ret with
      | count m =>
        have hcount : retry+sends.count .again ≤ 3 := by
          rwa [List.count_cons_of_ne (by exact SendRet.noConfusion)] at hagain
        cases m with
        | zero => exact absurd rfl hzero.1
        | succ m =>
          rw [sendLoop] at h
          split at h
          · exact ih hcount herror.2 hzero.2 h
          · cases h
      | again =>
        rw [List.count_cons_self] at hagain
        rw [sendLoop, if_neg (by omega)] at h
        exact ih (by omega) herror.2 hzero.2 h
      | error => exact absurd rfl herror.1

/-! What one round does to its slot, and to the others. -/

theorem strlen_of_response {r : List UInt8} (hr : 0 ∉ r) (rest : List UInt8) :
    strlen (r ++ 0 :: rest) = r.length := by
  have hall : ∀ b ∈ r, decide (b ≠ 0) = true :=
    fun b hb => decide_eq_true fun heq => hr (heq ▸ hb)
  rw [strlen, List.takeWhile_append_of_pos hall]
  simp

/-- The string that was placed is what is sent, with the byte that ends it. -/
theorem bytesToSend_copyTo {buffer r : List UInt8} (hr : 0 ∉ r) :
    bytesToSend (copyTo buffer 0 (r ++ [0])) = r ++ [0] := by
  have hbuffer : copyTo buffer 0 (r ++ [0]) = r ++ 0 :: buffer.drop (r.length+1) := by
    simp [copyTo]
  rw [bytesToSend, hbuffer, strlen_of_response hr, List.take_length_add_append]
  rfl

theorem bytesToSend_length {buffer : List UInt8} (h : strlen buffer < buffer.length) :
    (bytesToSend buffer).length = strlen buffer+1 := by
  rw [bytesToSend, List.length_take]
  omega

theorem transmitPending_onlyTouches {s t : Server} {i : ℕ} {sends : List SendRet} {status : Bool}
    (h : transmitPending s i sends = some (status, t)) : OnlyTouches {i} s t := by
  unfold transmitPending at h
  simp only at h
  split at h
  · cases h
    exact .refl _ s
  · split at h <;> cases h
    exact setClient_onlyTouches s i _

/-- The round of a connection in use calls `TransmitPending`; its end is never the normal path. -/
theorem transmitStep_inUse {sends : ℕ → List SendRet} {s t : Server} {i : ℕ}
    (huse : (s.pClients i).inUse = true) (h : transmitStep sends s i = some t) :
    watchedWith s (s.pClients i).socket POLLOUT = some true ∧
      ∃ status s₁, transmitPending s i (sends i) = some (status, s₁) ∧
        t = if status then s₁ else closeConnection s₁ i := by
  simp only [transmitStep, huse, arrayIsNull, Bool.false_eq_true, not_false_eq_true, and_self,
    if_true, if_false] at h
  split at h
  · cases h
  · next hwatched => cases watchedWith_of_mask (by decide) hwatched
  · next hwatched =>
    refine ⟨hwatched, ?_⟩
    split at h
    · cases h
    · next s₁ hsend =>
      cases h
      exact ⟨false, s₁, hsend, rfl⟩
    · next s₁ hsend =>
      cases h
      exact ⟨true, t, hsend, rfl⟩

theorem transmitStep_onlyTouches {sends : ℕ → List SendRet} {s t : Server} {i : ℕ}
    (h : transmitStep sends s i = some t) : OnlyTouches {i} s t := by
  rcases transmitStep_cases h with ⟨huse, _⟩ | ⟨_, rfl⟩
  · obtain ⟨_, status, s₁, hsend, rfl⟩ := transmitStep_inUse huse h
    have hpending := transmitPending_onlyTouches hsend
    cases status with
    | true => exact hpending
    | false =>
      have hsocket := (transmitPending_sameTables huse hsend).socket i
      -- closing finds the slot with its socket
      have hclose := closeConnection_onlyTouches s₁ i
      have hboth := hpending.trans hclose fun k hk => by rwa [Set.mem_singleton_iff.mp hk]
      exact hboth.mono (Set.union_self _).subset
  · exact closeConnection_onlyTouches s i

/-- The round of a connected slot sends what its buffer holds, and clears the buffer. -/
theorem transmitStep_connected {sends : ℕ → List SendRet} {s t : Server} {i : ℕ}
    (huse : (s.pClients i).inUse = true) (hsocket : (s.pClients i).socket ≠ -1)
    (hlen : strlen (s.pClients i).pendingSendBuffer < (s.pClients i).pendingSendBuffer.length)
    (hsends : Tolerated (sends i)) (h : transmitStep sends s i = some t) :
    sentInRound sends s i = bytesToSend (s.pClients i).pendingSendBuffer ∧
      t.pClients i =
        { s.pClients i with pendingSendBuffer := List.replicate netBufferSize 0 } := by
  obtain ⟨hwatched, status, s₁, hsend, rfl⟩ := transmitStep_inUse huse h
  simp only [transmitPending, if_neg hsocket] at hsend
  split at hsend <;> cases hsend
  next hloop =>
    have hstatus : status = true :=
      sendLoop_status (by rw [Nat.zero_add]; exact hsends.1) hsends.2.1 hsends.2.2 hloop
    rw [← bytesToSend_length hlen] at hloop
    constructor
    · simp only [sentInRound]
      rw [if_pos ⟨huse, hwatched, hsocket⟩, sendBytes_of_ended hloop]
    · rw [hstatus]
      exact Function.update_self _ _ _

/-! A whole pass. -/

/-- The rounds of other slots leave a slot and what was sent to it alone. -/
theorem foldlM_transmitPassStep_other {sends : ℕ → List SendRet} {l : List ℕ} {i : ℕ} (hi : i ∉ l)
    {w w' : Wire} (h : l.foldlM (transmitPassStep sends) w = some w') :
    w'.server.pClients i = w.server.pClients i ∧ w'.sent i = w.sent i := by
  refine foldlM_invariant
    (I := fun v => v.server.pClients i = w.server.pClients i ∧ v.sent i = w.sent i) ?_ h ⟨rfl, rfl⟩
  rintro v k v' hk ⟨hclient, hsent⟩ hround
  obtain ⟨t, hstep, rfl⟩ := Option.map_eq_some_iff.mp hround
  have hne : i ≠ k := fun heq => hi (heq ▸ hk)
  constructor
  · exact ((transmitStep_onlyTouches hstep).clients i hne).trans hclient
  · exact (Function.update_of_ne hne _ _).trans hsent

theorem foldlM_transmitPassStep_due {sends : ℕ → List SendRet} {l : List ℕ} {w w' : Wire}
    (h : l.foldlM (transmitPassStep sends) w = some w') : w'.due = w.due := by
  refine foldlM_invariant (I := fun v => v.due = w.due) ?_ h rfl
  rintro v k v' - hdue hround
  obtain ⟨t, -, rfl⟩ := Option.map_eq_some_iff.mp hround
  exact hdue

/-- A pass sends a connected slot what its buffer holds, and clears the buffer. -/
theorem transmitPass_connected {sends : ℕ → List SendRet} {w w' : Wire} {i : ℕ} (hi : i ∈ slots)
    (huse : (w.server.pClients i).inUse = true) (hsocket : (w.server.pClients i).socket ≠ -1)
    (hlen : strlen (w.server.pClients i).pendingSendBuffer <
      (w.server.pClients i).pendingSendBuffer.length)
    (hsends : Tolerated (sends i)) (h : transmitPass w sends = some w') :
    w'.sent i = w.sent i ++ bytesToSend (w.server.pClients i).pendingSendBuffer ∧
      w'.server.pClients i =
        { w.server.pClients i with pendingSendBuffer := List.replicate netBufferSize 0 } := by
  -- the rounds before the slot's own, and those after
  obtain ⟨before, after, hslots⟩ := List.append_of_mem hi
  have hnodup : (before ++ i :: after).Nodup := hslots ▸ List.nodup_range
  rw [List.nodup_middle, List.nodup_cons, List.mem_append, not_or] at hnodup
  rw [transmitPass, hslots, List.foldlM_append] at h
  obtain ⟨v, hbefore, h⟩ := Option.bind_eq_some_iff.mp h
  rw [List.foldlM_cons] at h
  obtain ⟨v', hround, hafter⟩ := Option.bind_eq_some_iff.mp h
  obtain ⟨t, hstep, rfl⟩ := Option.map_eq_some_iff.mp hround
  obtain ⟨hclient, hsent⟩ := foldlM_transmitPassStep_other hnodup.1.1 hbefore
  obtain ⟨hclient', hsent'⟩ := foldlM_transmitPassStep_other hnodup.1.2 hafter
  rw [← hclient] at huse hsocket hlen ⊢
  obtain ⟨hbytes, hcleared⟩ := transmitStep_connected huse hsocket hlen hsends hstep
  constructor
  · rw [hsent', ← hbytes, ← hsent]
    exact Function.update_self _ _ _
  · rw [hclient', ← hcleared]

/-- What a round sends to a connected slot, and what was due to it. -/
theorem nextWire_connected {i : ℕ} (hi : i ∈ slots) {w w' : Wire} {round : Round}
    (hw : Connected i w.server) (h : nextWire i w round = some w') :
    Connected i w'.server ∧ w'.sent i = w.sent i ++ (round.response i ++ [0]) ∧
      w'.due i = w.due i ++ responseBytes (round.response i) := by
  unfold nextWire at h
  split at h
  · next hround =>
    obtain ⟨⟨hfits, hnul⟩, hsends⟩ := hround
    have hplaced : (w.place round.response).server.pClients i =
        { w.server.pClients i with
          pendingSendBuffer := copyTo (List.replicate netBufferSize 0) 0
            (round.response i ++ [0]) } := by
      rw [← hw.empty]
      exact if_pos hw.inUse
    have hlen : strlen (copyTo (List.replicate netBufferSize 0) 0 (round.response i ++ [0])) <
        (copyTo (List.replicate netBufferSize (0 : UInt8)) 0 (round.response i ++ [0])).length := by
      have hstart : copyTo (List.replicate netBufferSize 0) 0 (round.response i ++ [0]) =
          round.response i ++ 0 :: (List.replicate netBufferSize 0).drop
            ((round.response i).length+1) := by
        simp [copyTo]
      rw [hstart, strlen_of_response hnul, List.length_append, List.length_cons]
      omega
    obtain ⟨hsent, hclient⟩ := transmitPass_connected hi (by rw [hplaced]; exact hw.inUse)
      (by rw [hplaced]; exact hw.socket) (by rw [hplaced]; exact hlen) hsends h
    rw [hplaced] at hsent hclient
    refine ⟨⟨?_, ?_, ?_⟩, ?_, ?_⟩
    · rw [hclient]
      exact hw.inUse
    · rw [hclient]
      exact hw.socket
    · rw [hclient]
    · rw [hsent, bytesToSend_copyTo hnul]
      rfl
    · rw [foldlM_transmitPassStep_due h]
      rfl
  · cases h

/-- A round keeps what is sent to what is due exactly when there was a response to send. -/
theorem sent_step {i : ℕ} (hi : i ∈ slots) {w w' : Wire} {round : Round}
    (hw : Connected i w.server) (hsent : w.sent i = w.due i) (h : nextWire i w round = some w') :
    w'.sent i = w'.due i ↔ round.response i ≠ [] := by
  obtain ⟨-, hsent', hdue'⟩ := nextWire_connected hi hw h
  rw [hsent', hdue', hsent, List.append_cancel_left_eq]
  unfold responseBytes
  split
  · next hidle => exact iff_of_false (by simp) fun hne => hne hidle
  · next hbusy => exact iff_of_true rfl hbusy

/-- From any server with an open connection in slot `i`, its socket has always been sent exactly its
responses, each with the byte that ends it, exactly when no pass found its buffer empty. -/
theorem responses_sent_iff_never_idle {i : ℕ} (hi : i ∈ slots) {s : Server} (hs : Connected i s)
    {tr : List (Wire × Round)} {w : Wire} (h : Run (nextWire i) (.start s) tr w) :
    Throughout (fun w => w.sent i = w.due i) tr w ↔ ∀ p ∈ tr, p.2.response i ≠ [] :=
  h.throughout_iff (I := fun w => Connected i w.server)
    (fun _ (round : Round) => round.response i ≠ [])
    (fun _ _ _ hw hstep => (nextWire_connected hi hw hstep).1)
    (fun _ _ _ hw hsent hstep => sent_step hi hw hsent hstep) hs rfl

theorem firstClient_connected : Connected 2 firstClient := ⟨rfl, by decide +kernel, rfl⟩

/-- The client is sent "ok" in two parts, the second after a transient error. -/
def okRound : Round where
  response := fun _ => [111, 107]
  sends := fun _ => [.count 1, .again, .count 2]

def okSent : Wire := (nextWire 2 (.start firstClient) okRound).get (by decide +kernel)

theorem responses_sent_iff_never_idle_ok : okSent.sent 2 = okSent.due 2 :=
  ((responses_sent_iff_never_idle (by decide) firstClient_connected
    (.single (Option.some_get _).symm)).mpr fun p hp => by
      rw [List.mem_singleton.mp hp]
      exact List.cons_ne_nil _ _).2

/-- Nothing was placed for the client, and `send` takes one byte. -/
def idleRound : Round where
  response := fun _ => []
  sends := fun _ => [.count 1]

theorem idleRound_sent :
    (nextWire 2 (.start firstClient) idleRound).map (fun w => (w.sent 2, w.due 2)) =
      some ([0], []) := by decide +kernel

theorem idle_pass_sends_nul :
    ¬ ∀ (i : ℕ) (s : Server), i ∈ slots → Connected i s → ∀ (tr : List (Wire × Round)) (w : Wire),
      Run (nextWire i) (.start s) tr w → Throughout (fun w => w.sent i = w.due i) tr w := by
  intro hall
  obtain ⟨w, hw, hbytes⟩ := Option.map_eq_some_iff.mp idleRound_sent
  have hlast : w.sent 2 = w.due 2 :=
    (hall 2 firstClient (by decide) firstClient_connected _ w (.single hw)).2
  rw [(Prod.mk.inj hbytes).1, (Prod.mk.inj hbytes).2] at hlast
  cases hlast

end LinuxPrograms.PollServer
