import LinuxPrograms.PollServerCounter
import LinuxPrograms.PollServerSend

/-! What a pass of `TransmitPendingLoop` makes of a connection whose data it sends completely. The
branch meant for it is never taken, so its state stays as it was, unless a call of `send` failed on
the way: then it is closed, as long as the counter is not 0. -/
namespace LinuxPrograms.PollServer
open Lib

/-- The results of the calls of `send` that `TransmitPending` makes. -/
def callsMade : List SendRet → ℕ → List SendRet
  | _, 0 => []
  | [], _+1 => []
  | ret :: sends, bytesToBeSend+1 => ret :: callsMade sends (bytesToBeSend+1-ret.taken)

/-- The calls made for slot `i`. -/
def callsFor (sends : ℕ → List SendRet) (s : Server) (i : ℕ) : List SendRet :=
  callsMade (sends i) (bytesPending s i)

/-- `TransmitPending` sends all that is pending in slot `i`. -/
def SentCompletely (sends : ℕ → List SendRet) (s : Server) (i : ℕ) : Prop :=
  (s.pClients i).inUse = true ∧ (s.pClients i).socket ≠ -1 ∧
    ∃ status, sendLoop (sends i) (bytesPending s i) 0 true = some status

/-- The round of slot `i` calls `CloseConnection`. -/
def RoundCloses (sends : ℕ → List SendRet) (s : Server) (i : ℕ) : Prop :=
  (s.pClients i).inUse = false ∨ (s.pClients i).socket = -1 ∨ ¬ Tolerated (callsFor sends s i)

instance (sends : ℕ → List SendRet) (s : Server) (i : ℕ) : Decidable (RoundCloses sends s i) := by
  unfold RoundCloses
  infer_instance

/-- The rounds before that of slot `i` have brought the counter to 0. -/
def UsedUp (sends : ℕ → List SendRet) (s : Server) (i : ℕ) : Prop :=
  0 ≤ s.connectionsActive ∧
    s.connectionsActive ≤ ((List.range i).countP (fun k => decide (RoundCloses sends s k)) : ℕ)

instance (sends : ℕ → List SendRet) (s : Server) (i : ℕ) : Decidable (UsedUp sends s i) := by
  unfold UsedUp
  infer_instance

/-- Closed if that was pending, and otherwise idle, for the first time or as before. -/
def Settled (c c' : Connection) : Prop :=
  if c.closePending then c' = .cleared
  else c'.inUse = true ∧ c'.state = .eIdle ∧ (c.state ≠ .eIdle → c'.idleTime = 0)

/-! The status `TransmitPending` returns. -/

theorem callsMade_cons (ret : SendRet) (sends : List SendRet) {n : ℕ} (hn : 0 < n) :
    callsMade (ret :: sends) n = ret :: callsMade sends (n-ret.taken) := by
  obtain ⟨b, rfl⟩ := Nat.exists_eq_succ_of_ne_zero (Nat.ne_of_gt hn)
  rfl

/-- Nothing sets the status again. -/
theorem sendLoop_false {sends : List SendRet} {n retry : ℕ} {status : Bool}
    (h : sendLoop sends n retry false = some status) : status = false := by
  induction sends generalizing n retry with
  | nil =>
    cases n <;> cases h
    rfl
  | cons ret sends ih =>
    rcases Nat.eq_zero_or_pos n with rfl | hpos
    · cases h
      rfl
    · obtain ⟨b, rfl⟩ := Nat.exists_eq_succ_of_ne_zero (Nat.ne_of_gt hpos)
      cases ret with
      | count m =>
        cases m with
        | zero =>
          have hrest : sendLoop sends (b+1) retry false = some status := h
          exact ih hrest
        | succ m =>
          rw [sendLoop] at h
          split at h
          · exact ih h
          · cases h
      | again =>
        rw [sendLoop, ite_self] at h
        exact ih h
      | error =>
        have hrest : sendLoop sends (b+1) retry false = some status := h
        exact ih hrest

/-- When all is sent the status tells whether every call made was tolerated. -/
theorem sendLoop_status_iff {sends : List SendRet} {n retry : ℕ} {status : Bool}
    (hretry : retry ≤ 3) (h : sendLoop sends n retry true = some status) :
    status = true ↔ retry+(callsMade sends n).count .again ≤ 3 ∧
      SendRet.error ∉ callsMade sends n ∧ SendRet.count 0 ∉ callsMade sends n := by
  induction sends generalizing n retry with
  | nil =>
    cases n <;> cases h
    simpa [callsMade] using hretry
  | cons ret sends ih =>
    rcases Nat.eq_zero_or_pos n with rfl | hpos
    · cases h
      simpa [callsMade] using hretry
    · obtain ⟨b, rfl⟩ := Nat.exists_eq_succ_of_ne_zero (Nat.ne_of_gt hpos)
      rw [callsMade_cons ret sends hpos]
      cases ret with
      | count m =>
        cases m with
        | zero =>
          have hrest : sendLoop sends (b+1) retry false = some status := h
          rw [sendLoop_false hrest]
          exact iff_of_false Bool.false_ne_true fun hall => hall.2.2 List.mem_cons_self
        | succ m =>
          rw [sendLoop] at h
          split at h
          · have hrest : b.succ-(SendRet.count (m+1)).taken = b-m := Nat.add_sub_add_right b 1 m
            rw [ih hretry h, hrest]
            simp
          · cases h
      | again =>
        have hrest : b.succ-SendRet.again.taken = b+1 := rfl
        rw [hrest, List.count_cons_self]
        rw [sendLoop] at h
        split at h
        -- one transient error too many
        · rw [sendLoop_false h]
          exact iff_of_false Bool.false_ne_true fun hall => by omega
        · rw [ih (by omega) h]
          simp [Nat.add_assoc, Nat.add_comm 1]
      | error =>
        have hrest : sendLoop sends (b+1) retry false = some status := h
        rw [sendLoop_false hrest]
        exact iff_of_false Bool.false_ne_true fun hall => hall.2.1 List.mem_cons_self

/-! One round. -/

/-- A connection whose data is sent. -/
def flushed (c : Connection) : Connection :=
  { c with pendingSendBuffer := List.replicate netBufferSize 0 }

theorem roundCloses_congr {sends : ℕ → List SendRet} {s t : Server} {i : ℕ}
    (h : t.pClients i = s.pClients i) : RoundCloses sends t i ↔ RoundCloses sends s i := by
  rw [RoundCloses, RoundCloses, callsFor, callsFor, bytesPending, bytesPending, h]

theorem SentCompletely.congr {sends : ℕ → List SendRet} {s t : Server} {i : ℕ}
    (h : t.pClients i = s.pClients i) (hsent : SentCompletely sends s i) :
    SentCompletely sends t i := by
  rw [SentCompletely, bytesPending] at hsent ⊢
  rwa [h]

theorem SentCompletely.roundCloses {sends : ℕ → List SendRet} {s : Server} {i : ℕ}
    (h : SentCompletely sends s i) :
    RoundCloses sends s i ↔ ¬ Tolerated (callsFor sends s i) := by
  constructor
  · rintro (hunused | hsocket | hfailed)
    · rw [h.1] at hunused
      cases hunused
    · exact absurd hsocket h.2.1
    · exact hfailed
  · exact fun hfailed => Or.inr (Or.inr hfailed)

/-- A round that ends closes its connection, or leaves it with its data sent. -/
theorem transmitStep_round {sends : ℕ → List SendRet} {s t : Server} {i : ℕ}
    (h : transmitStep sends s i = some t) :
    ∃ s₁, s₁.connectionsActive = s.connectionsActive ∧
      (SentCompletely sends s i → s₁.pClients i = flushed (s.pClients i)) ∧
      t = if RoundCloses sends s i then closeConnection s₁ i else s₁ := by
  rcases transmitStep_cases h with ⟨huse, -⟩ | ⟨hunused, rfl⟩
  · obtain ⟨-, status, s₁, hsend, rfl⟩ := transmitStep_inUse huse h
    refine ⟨s₁, (transmitPending_sameTables huse hsend).connectionsActive, fun hsent => ?_, ?_⟩
    · rw [transmitPending_open hsent.2.1] at hsend
      obtain ⟨_, -, hpair⟩ := Option.map_eq_some_iff.mp hsend
      rw [← (Prod.mk.inj hpair).2]
      exact Function.update_self _ _ _
    · -- the status is that of the calls made
      have hstatus : status = true ↔ ¬ RoundCloses sends s i := by
        by_cases hsocket : (s.pClients i).socket = -1
        · have hnone : transmitPending s i (sends i) = some (false, s) := if_pos hsocket
          rw [hnone, Option.some.injEq, Prod.mk.injEq] at hsend
          rw [← hsend.1]
          exact iff_of_false Bool.false_ne_true (not_not_intro (Or.inr (Or.inl hsocket)))
        · rw [transmitPending_open hsocket] at hsend
          obtain ⟨_, hloop, hpair⟩ := Option.map_eq_some_iff.mp hsend
          rw [(Prod.mk.inj hpair).1] at hloop
          have hsent : SentCompletely sends s i := ⟨huse, hsocket, status, hloop⟩
          rw [hsent.roundCloses, not_not, sendLoop_status_iff (Nat.zero_le 3) hloop, Nat.zero_add]
          rfl
      cases status with
      | true => rw [if_neg (hstatus.mp rfl)]; rfl
      | false =>
        rw [if_pos (not_not.mp fun hopen => Bool.false_ne_true (hstatus.mpr hopen))]
        rfl
  · refine ⟨s, rfl, fun hsent => ?_, (if_pos (Or.inl hunused)).symm⟩
    rw [hsent.1] at hunused
    cases hunused

theorem transmitStep_counter {sends : ℕ → List SendRet} {s t : Server} {i : ℕ}
    (h : transmitStep sends s i = some t) :
    t.connectionsActive =
      if RoundCloses sends s i ∧ s.connectionsActive ≠ 0 then s.connectionsActive-1
      else s.connectionsActive := by
  obtain ⟨s₁, hcounter, -, rfl⟩ := transmitStep_round h
  by_cases hcloses : RoundCloses sends s i
  · rw [if_pos hcloses]
    by_cases hactive : s.connectionsActive = 0
    · rw [if_neg fun hboth => hboth.2 hactive, closeConnection_inactive (hcounter.trans hactive),
        hcounter]
    · rw [if_pos ⟨hcloses, hactive⟩, closeConnection_connectionsActive (hcounter ▸ hactive),
        hcounter]
  · rw [if_neg hcloses, if_neg fun hboth => hcloses hboth.1, hcounter]

theorem transmitStep_slot {sends : ℕ → List SendRet} {s t : Server} {i : ℕ}
    (hsent : SentCompletely sends s i) (h : transmitStep sends s i = some t) :
    t.pClients i =
      if RoundCloses sends s i ∧ s.connectionsActive ≠ 0 then .cleared
      else flushed (s.pClients i) := by
  obtain ⟨s₁, hcounter, hflushed, rfl⟩ := transmitStep_round h
  by_cases hcloses : RoundCloses sends s i
  · rw [if_pos hcloses]
    by_cases hactive : s.connectionsActive = 0
    · rw [if_neg fun hboth => hboth.2 hactive, closeConnection_inactive (hcounter.trans hactive),
        hflushed hsent]
    · rw [if_pos ⟨hcloses, hactive⟩, closeConnection_pClients (hcounter ▸ hactive),
        Function.update_self]
  · rw [if_neg hcloses, if_neg fun hboth => hcloses hboth.1, hflushed hsent]

/-! The pass. -/

/-- What `d` calls of `CloseConnection` leave of the counter. -/
def counterAfter (a : ℤ) (d : ℕ) : ℤ := if 0 ≤ a ∧ a ≤ d then 0 else a-d

theorem counterAfter_succ (a : ℤ) (d : ℕ) :
    counterAfter a (d+1) =
      if counterAfter a d ≠ 0 then counterAfter a d-1 else counterAfter a d := by
  unfold counterAfter
  split <;> split <;> omega

/-- The rounds of the slots below `k`. -/
theorem foldlM_range_transmitStep {sends : ℕ → List SendRet} {s t : Server} {k : ℕ}
    (h : (List.range k).foldlM (transmitStep sends) s = some t) :
    t.connectionsActive = counterAfter s.connectionsActive
        ((List.range k).countP (fun j => decide (RoundCloses sends s j))) ∧
      ∀ j, k ≤ j → t.pClients j = s.pClients j := by
  induction k generalizing t with
  | zero =>
    cases h
    refine ⟨?_, fun _ _ => rfl⟩
    unfold counterAfter
    split <;> simp_all
    omega
  | succ k ih =>
    rw [List.range_succ, List.foldlM_append] at h
    obtain ⟨v, hbefore, hlast⟩ := Option.bind_eq_some_iff.mp h
    have hround : transmitStep sends v k = some t := by simpa using hlast
    obtain ⟨hcounter, hclients⟩ := ih hbefore
    constructor
    · rw [transmitStep_counter hround, List.range_succ, List.countP_append, hcounter]
      have hcloses : RoundCloses sends v k ↔ RoundCloses sends s k :=
        roundCloses_congr (hclients k (Nat.le_refl k))
      by_cases hround' : RoundCloses sends s k
      · simp only [hcloses.mpr hround', true_and, List.countP_singleton, hround', decide_true,
          if_true, counterAfter_succ]
      · simp only [hcloses, hround', false_and, if_false, List.countP_singleton, decide_false,
          Bool.false_eq_true, Nat.add_zero]
    · intro j hj
      have hne : j ∉ ({k} : Set ℕ) := fun heq => by
        rw [Set.mem_singleton_iff] at heq
        omega
      rw [(transmitStep_onlyTouches hround).clients j hne, hclients j (by omega)]

theorem foldlM_transmitStep_other {sends : ℕ → List SendRet} {l : List ℕ} {i : ℕ} (hi : i ∉ l)
    {s t : Server} (h : l.foldlM (transmitStep sends) s = some t) :
    t.pClients i = s.pClients i := by
  refine foldlM_invariant (I := fun v => v.pClients i = s.pClients i) ?_ h rfl
  intro v k v' hk hclient hround
  have hne : i ∉ ({k} : Set ℕ) := fun heq => hi (Set.mem_singleton_iff.mp heq ▸ hk)
  exact ((transmitStep_onlyTouches hround).clients i hne).trans hclient

theorem slots_split {i : ℕ} (hi : i ∈ slots) :
    ∃ after, slots = List.range i ++ i :: after ∧ i ∉ after := by
  obtain ⟨m, hm⟩ := Nat.exists_eq_add_of_lt (mem_slots.mp hi)
  have hslots : slots = List.range i ++ i :: (List.range m).map (fun k => i+(k+1)) := by
    rw [slots, hm, Nat.add_assoc, List.range_add, List.range_succ_eq_map, List.map_cons,
      List.map_map]
    rfl
  refine ⟨_, hslots, fun hmem => ?_⟩
  obtain ⟨k, -, hk⟩ := List.mem_map.mp hmem
  omega

/-- What a pass makes of a slot whose data it sends. -/
theorem transmitPendingLoop_slot {sends : ℕ → List SendRet} {s t : Server} {i : ℕ} (hi : i ∈ slots)
    (hsent : SentCompletely sends s i) (h : transmitPendingLoop s sends = some t) :
    t.pClients i =
      if ¬ Tolerated (callsFor sends s i) ∧ ¬ UsedUp sends s i then .cleared
      else flushed (s.pClients i) := by
  obtain ⟨after, hslots, hafter⟩ := slots_split hi
  rw [transmitPendingLoop, hslots, List.foldlM_append] at h
  obtain ⟨v, hbefore, h⟩ := Option.bind_eq_some_iff.mp h
  rw [List.foldlM_cons] at h
  obtain ⟨v', hround, hrest⟩ := Option.bind_eq_some_iff.mp h
  obtain ⟨hcounter, hclients⟩ := foldlM_range_transmitStep hbefore
  have hclient := hclients i (Nat.le_refl i)
  have hused : v.connectionsActive = 0 ↔ UsedUp sends s i := by
    rw [hcounter, counterAfter, UsedUp]
    split <;> omega
  have hcloses : RoundCloses sends v i ∧ v.connectionsActive ≠ 0 ↔
      ¬ Tolerated (callsFor sends s i) ∧ ¬ UsedUp sends s i := by
    rw [roundCloses_congr hclient, hsent.roundCloses, Ne, hused]
  rw [foldlM_transmitStep_other hafter hrest, transmitStep_slot (hsent.congr hclient) hround,
    hclient]
  exact if_congr hcloses rfl rfl

/-- A slot whose data is sent completely is settled by the pass exactly when it is closed for a
failed call with its close pending, or left alone while it is idle with no close pending. -/
theorem settled_iff {sends : ℕ → List SendRet} {s t : Server} {i : ℕ} (hi : i ∈ slots)
    (hsent : SentCompletely sends s i) (h : transmitPendingLoop s sends = some t) :
    Settled (s.pClients i) (t.pClients i) ↔
      if ¬ Tolerated (callsFor sends s i) ∧ ¬ UsedUp sends s i then
        (s.pClients i).closePending = true
      else (s.pClients i).closePending = false ∧ (s.pClients i).state = .eIdle := by
  rw [transmitPendingLoop_slot hi hsent h]
  have huse := hsent.1
  have hcleared : Connection.cleared.inUse = false := rfl
  by_cases hcloses : ¬ Tolerated (callsFor sends s i) ∧ ¬ UsedUp sends s i
  · rw [if_pos hcloses, if_pos hcloses]
    cases hpending : (s.pClients i).closePending with
    | false => simp [Settled, hpending, hcleared]
    | true => simp [Settled, hpending]
  · rw [if_neg hcloses, if_neg hcloses]
    cases hpending : (s.pClients i).closePending with
    | false =>
      have hflushed : (flushed (s.pClients i)).inUse = true := huse
      simp only [Settled, hpending, hflushed, Bool.false_eq_true, if_false, true_and]
      exact ⟨fun hsettled => hsettled.1, fun hidle => ⟨hidle, fun hne => absurd hidle hne⟩⟩
    | true =>
      refine iff_of_false (fun hsettled => ?_) fun hboth => Bool.false_ne_true hboth.1.symm
      rw [Settled, if_pos hpending] at hsettled
      have hflushed : (flushed (s.pClients i)).inUse = true := huse
      rw [hsettled] at hflushed
      cases hflushed

/-- The client of slot 2, idle. -/
def idleClient : Server :=
  firstClient.setClient 2 { firstClient.pClients 2 with state := .eIdle }

theorem idleClient_sent : SentCompletely (fun _ => [.count 1]) idleClient 2 :=
  ⟨by decide, by decide, true, by decide +kernel⟩

def idleClientSent : Server :=
  (transmitPendingLoop idleClient fun _ => [.count 1]).get (by decide +kernel)

theorem settled_iff_idle_client : Settled (idleClient.pClients 2) (idleClientSent.pClients 2) := by
  have hcall : Tolerated (callsFor (fun _ => [.count 1]) idleClient 2) := by decide +kernel
  refine (settled_iff (by decide) idleClient_sent (Option.some_get _).symm).mpr ?_
  rw [if_neg fun hfailed => hfailed.1 hcall]
  exact ⟨by decide, by decide⟩

theorem firstClient_sent : SentCompletely (fun _ => [.count 1]) firstClient 2 :=
  ⟨by decide, by decide, true, by decide +kernel⟩

theorem firstClient_transmitted :
    (transmitPendingLoop firstClient fun _ => [.count 1]).map (fun t => (t.pClients 2).state) =
      some .eNewConnection := by decide +kernel

/-- A new connection whose data is sent stays new. -/
theorem new_connection_not_settled :
    ¬ ∀ (sends : ℕ → List SendRet) (s t : Server) (i : ℕ), i ∈ slots → SentCompletely sends s i →
      transmitPendingLoop s sends = some t → Settled (s.pClients i) (t.pClients i) := by
  intro hall
  obtain ⟨t, ht, hstate⟩ := Option.map_eq_some_iff.mp firstClient_transmitted
  have hsettled := hall _ firstClient t 2 (by decide) firstClient_sent ht
  have hpending : (firstClient.pClients 2).closePending = false := by decide
  rw [Settled, hpending, if_neg Bool.false_ne_true] at hsettled
  rw [hsettled.2.1] at hstate
  cases hstate

end LinuxPrograms.PollServer
