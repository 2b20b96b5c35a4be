import LinuxPrograms.C1000kChunks
import LinuxPrograms.C1000kCorrespondence
import LinuxPrograms.C1000kTimedPhase

/-! The workers against the clock: between two calls of `process_event`, `worker_thread` works out
how long `epoll_wait` may wait. -/
namespace LinuxPrograms.C1000k
open Lib

section Mintimer

variable {Ptr : Type*} [LinearOrder Ptr]

def TIMER.mintimer : TimeValue := 1000*1

/-- `get_mintimer` at the time `timeStamp`. -/
def TIMER.getMintimer (T : TIMER Ptr) (timeStamp : TimeValue) : TimeValue :=
  match T.timerTimeArg.entries with
  | [] => mintimer
  | iter :: _ =>
    let t := timeStamp-iter.1
    if 0 ≤ t then 0 else -t

/-- The end of the loop of `worker_thread`. -/
def outtime (T : TIMER Ptr) (timeStamp : TimeValue) : TimeValue :=
  if 0 < T.timerArgTime.entries.length then T.getMintimer timeStamp else 1000

/-- The two indexes agree. -/
def TIMER.Sound (T : TIMER Ptr) : Prop := T.Represents T.timerTimeArg.entries

theorem TIMER.Represents.sound {T : TIMER Ptr} {armed : List (TimeValue × Ptr)}
    (h : T.Represents armed) : T.Sound where
  timeArg := fun _ => rfl
  argTime := h.argTime.trans h.timeArg.perm.symm

/-- `T'` has been made from `T` by removing timers, and by arming some for ten seconds after a time
between `lo` and `hi`. -/
def TIMER.Arming (lo hi : TimeValue) (T T' : TIMER Ptr) : Prop :=
  T.Sound → T'.Sound ∧ ∀ e ∈ T'.timerTimeArg.entries,
    e ∈ T.timerTimeArg.entries ∨ (lo+10*1000 ≤ e.1 ∧ e.1 ≤ hi+10*1000)

namespace TIMER.Arming

variable {lo hi t : TimeValue} {T T' T'' : TIMER Ptr}

theorem refl (T : TIMER Ptr) : Arming lo hi T T := fun h => ⟨h, fun _ he => .inl he⟩

theorem trans (h : Arming lo hi T T') (h' : Arming lo hi T' T'') : Arming lo hi T T'' := by
  intro hT
  obtain ⟨hT', hmem⟩ := h hT
  obtain ⟨hT'', hmem'⟩ := h' hT'
  refine ⟨hT'', fun e he => ?_⟩
  rcases hmem' e he with he | hnew
  · exact hmem e he
  · exact .inr hnew

theorem addTimer (x : Ptr) (hlo : lo ≤ t) (hhi : t ≤ hi) :
    Arming lo hi T (T.addTimer x (t+10*1000)) := by
  intro hT
  have hT' := TIMER.Represents.addTimer hT x (t+10*1000)
  refine ⟨hT'.sound, fun e he => ?_⟩
  rcases List.mem_append.mp ((hT'.timeArg.mem_iff e).mp he) with he | he
  · exact .inl he
  · rw [List.mem_singleton.mp he]
    exact .inr ⟨Int.add_le_add_right hlo _, Int.add_le_add_right hhi _⟩

theorem removeTimer (x : Ptr) : Arming lo hi T (T.removeTimer x) := by
  intro hT
  have hT' := TIMER.Represents.removeTimer hT x
  refine ⟨hT'.sound, fun e he => .inl ?_⟩
  exact (List.mem_filter.mp ((hT'.timeArg.mem_iff e).mp he)).1

theorem getTimer {x : Option Ptr} (h : T.getTimer t = some (x, T')) : Arming lo hi T T' := by
  intro hT
  obtain ⟨T₁, hget, hT₁⟩ := TIMER.Represents.getTimer hT t
  cases hget.symm.trans h
  refine ⟨hT₁.sound, fun e he => .inl ?_⟩
  have he := (hT₁.timeArg.mem_iff e).mp he
  unfold TimerSet.get at he
  split at he
  · exact he
  · split at he
    · exact List.mem_of_mem_erase he
    · exact he

end TIMER.Arming

/-- `get_timer` returns nothing once no timer is due. -/
theorem TIMER.none_due {T T' : TIMER Ptr} {timeStamp : TimeValue} (hT : T.Sound)
    (h : T.getTimer timeStamp = some (none, T')) :
    ∀ e ∈ T.timerTimeArg.entries, timeStamp < e.1 := by
  rcases TIMER.Represents.getTimer_cases hT timeStamp with ⟨hnone, -⟩ | ⟨p, T₁, -, -, hget, -⟩
  · intro e he
    have hlate := List.filter_eq_nil_iff.mp hnone e he
    simpa using hlate
  · cases hget.symm.trans h

theorem left_eq_max (now due : ℤ) :
    (if 0 ≤ now-due then 0 else -(now-due)) = max 0 (due-now) := by
  omega

/-- A worker without timers waits for a second; with a timer due, not at all; and otherwise until
the earliest of its timers is due. -/
theorem outtime_cases {T : TIMER Ptr} (hT : T.Sound) (timeStamp : TimeValue) :
    (T.timerTimeArg.entries = [] ∧ outtime T timeStamp = 1000) ∨
      ∃ p ∈ T.timerTimeArg.entries, (∀ e ∈ T.timerTimeArg.entries, p.1 ≤ e.1) ∧
        outtime T timeStamp = max 0 (p.1-timeStamp) := by
  have hlen : T.timerArgTime.entries.length = T.timerTimeArg.entries.length := by
    rw [← hT.argTime.length_eq, List.length_map]
  unfold outtime TIMER.getMintimer
  rw [hlen]
  cases hentries : T.timerTimeArg.entries with
  | nil => exact .inl ⟨rfl, rfl⟩
  | cons p rest =>
    have hle := hT.timeArg.head_le hentries
    refine .inr ⟨p, List.mem_cons_self, hentries ▸ hle, ?_⟩
    rw [if_pos (show 0 < (p :: rest).length from Nat.succ_pos _)]
    exact left_eq_max timeStamp p.1

end Mintimer

/-! What the functions of a worker do to the timers. -/

/-- What every registration relates, a call of `readfun_getConnections` relates. -/
theorem recvLoop_related {σ : Type*} {register : TimeValue → ℕ → σ → Except Stop σ}
    {R : σ → σ → Prop} {P : TimeValue → Prop} (hrefl : ∀ s, R s s)
    (htrans : ∀ s t u, R s t → R t u → R s u)
    (hreg : ∀ t fd s s', P t → register t fd s = .ok s' → R s s') {recvs : List RecvRet}
    {buffer : List UInt8} {s s' : σ} (hnow : ∀ bytes now, .data bytes now ∈ recvs → ∀ k, P (now k))
    (h : recvLoop register recvs buffer s = .ok s') : R s s' := by
  have hproc {now : ℕ → TimeValue} (hP : ∀ k, P (now k)) {k : ℕ} {buffer rest : List UInt8}
      {s s' : σ} (h : processConnection register now k buffer s = .ok (s', rest)) : R s s' := by
    fun_induction processConnection register now k buffer s with
    | case1 k b₀ b₁ b₂ b₃ buffer s s₁ hone ih =>
      exact htrans _ _ _ (hreg _ _ _ _ (hP k) hone) (ih h)
    | case2 => cases h
    | case3 =>
      cases h
      exact hrefl _
  fun_induction recvLoop register recvs buffer s with
  | case1 =>
    cases h
    exact hrefl _
  | case2 => cases h
  | case3 => cases h
  | case4 bytes now recvs buffer s hsome hlen s₁ buffer' hconn ih =>
    have hfirst := hproc (fun k => hnow bytes now List.mem_cons_self k) hconn
    have hrest := ih (fun bytes' now' hmem => hnow bytes' now' (List.mem_cons_of_mem _ hmem)) h
    exact htrans _ _ _ hfirst hrest
  | case5 => cases h
  | case6 => cases h

section Timers

variable [LinearOrder VoidPtr]

/-- Worker `w` has changed no timers but its own, and has armed its own between `lo` and `hi`. -/
structure ArmsWithin (lo hi : TimeValue) (w : ℕ) (s s' : World) : Prop where
  own : TIMER.Arming lo hi (s.timer w) (s'.timer w)
  others : ∀ w', w' ≠ w → s'.timer w' = s.timer w'

/-- The times at which descriptors are registered. -/
def Io.ReadsBetween (io : Io) (lo hi : TimeValue) : Prop :=
  ∀ bytes now, .data bytes now ∈ io.recvs → ∀ k, lo ≤ now k ∧ now k ≤ hi

namespace ArmsWithin

variable {lo hi : TimeValue} {w : ℕ} {s s' s'' : World}

theorem of_timer (h : s'.timer = s.timer) : ArmsWithin lo hi w s s' := by
  refine ⟨?_, fun w' _ => congrFun h w'⟩
  rw [h]
  exact TIMER.Arming.refl _

theorem trans (h : ArmsWithin lo hi w s s') (h' : ArmsWithin lo hi w s' s'') :
    ArmsWithin lo hi w s s'' where
  own := h.own.trans h'.own
  others := fun w' hne => (h'.others w' hne).trans (h.others w' hne)

theorem setTimer {T : TIMER VoidPtr} (h : TIMER.Arming lo hi (s.timer w) T) :
    ArmsWithin lo hi w s (s.setTimer w T) where
  own := by
    simp only [World.setTimer, Function.update_self]
    exact h
  others := fun w' hne => Function.update_of_ne hne _ _

theorem registerConnection {t : TimeValue} {fd : ℕ} (ht : lo ≤ t ∧ t ≤ hi)
    (h : registerConnection w t fd s = .ok s') : ArmsWithin lo hi w s s' := by
  obtain ⟨-, -, -, rfl⟩ := registerConnection_eq_ok.mp h
  have harm : TIMER.Arming lo hi (s.timer w) ((s.timer w).addTimer (.item fd) (t+10*1000)) :=
    .addTimer _ ht.1 ht.2
  exact ⟨(setTimer harm).own, (setTimer harm).others⟩

theorem clientReadfun (fd : ℕ) (reads : List ℤ) :
    ArmsWithin lo hi w s (clientReadfun fd reads s).2 := by
  induction reads with
  | nil => exact of_timer rfl
  | cons len reads ih =>
    unfold C1000k.clientReadfun
    split
    · exact of_timer rfl
    · split
      · exact of_timer rfl
      · exact ih

theorem countSended (fd : ℕ) (len : ℤ) : ArmsWithin lo hi w s (countSended fd len s) :=
  of_timer (countSended_keeps fd len s).1

theorem clientClosefun (fd : ℕ) : ArmsWithin lo hi w s (clientClosefun w fd s).2 :=
  (setTimer (.removeTimer (.item fd))).trans (of_timer rfl)

theorem callFromWorker {io : Io} {cb : Callback} {fd : ℕ} {r : ℤ} (hio : io.ReadsBetween lo hi)
    (h : callFromWorker w io cb fd s = .ok (r, s')) : ArmsWithin lo hi w s s' := by
  unfold C1000k.callFromWorker at h
  cases cb with
  | readfunGetConnections =>
    obtain ⟨s₁, hread, hs₁⟩ := map_eq_ok.mp h
    cases hs₁
    exact recvLoop_related (P := fun t => lo ≤ t ∧ t ≤ hi) (fun _ => of_timer rfl)
      (fun _ _ _ => trans) (fun _ _ _ _ ht hreg => registerConnection ht hreg) hio hread
  | clientReadfun =>
    have hs' : (C1000k.clientReadfun fd io.reads s).2 = s' := congrArg Prod.snd (Except.ok.inj h)
    rw [← hs']
    exact clientReadfun fd io.reads
  | clientWritefun =>
    cases h
    exact countSended fd io.write
  | clientClosefun =>
    cases h
    exact clientClosefun fd
  | acceptReadfun => cases h
  | fdsendWritefun => cases h

theorem callStage {io : Io} {fun? : FDITEM → Option Callback} {reported : Bool} {fd : ℕ}
    (hio : io.ReadsBetween lo hi) (h : callStage w io fun? reported fd s = .ok s') :
    ArmsWithin lo hi w s s' := by
  rcases WorldOk.callStage_cases h with rfl | ⟨cb, r, s₁, -, hcall, rfl | rfl⟩
  · exact of_timer rfl
  · exact callFromWorker hio hcall
  · exact (callFromWorker hio hcall).trans (of_timer rfl)

theorem closeStage {io : Io} {fd : ℕ} (hio : io.ReadsBetween lo hi)
    (h : closeStage w io fd s = .ok s') : ArmsWithin lo hi w s s' := by
  unfold C1000k.closeStage at h
  split at h
  · dsimp only at h
    have hremove : ArmsWithin lo hi w s (s.setTimer w ((s.timer w).removeTimer (.cell fd))) :=
      setTimer (.removeTimer _)
    split at h
    · obtain ⟨⟨r, s₁⟩, hcall, rfl⟩ := map_eq_ok.mp h
      exact hremove.trans (callFromWorker hio hcall)
    · cases h
  · cases h
    exact of_timer rfl

theorem processOneEvent {io : Io} {ev : Event} (hio : io.ReadsBetween lo hi)
    (h : processOneEvent w io ev s = .ok s') : ArmsWithin lo hi w s s' := by
  unfold C1000k.processOneEvent at h
  obtain ⟨s₁, hread, h⟩ := bind_eq_ok.mp h
  obtain ⟨s₂, hwrite, hclose⟩ := bind_eq_ok.mp h
  have hstages : ArmsWithin lo hi w s s₂ := (callStage hio hread).trans (callStage hio hwrite)
  have hhangup : ArmsWithin lo hi w s₂ (hangupStage ev s₂) := by
    unfold hangupStage
    split
    · exact of_timer rfl
    · exact of_timer rfl
  exact (hstages.trans hhangup).trans (closeStage hio hclose)

/-- A timer that fires is armed for ten seconds after the time it is told. -/
theorem timedTask {t : TimeValue} {len : ℤ} (h : timedTask w t len s = .ok (some s')) :
    ArmsWithin t t w s s' := by
  unfold C1000k.timedTask at h
  split at h
  · cases h
  · cases h
  · rename_i i T hget
    dsimp only at h
    split at h
    · cases h
      rw [WorldOk.clientTimeoutfun_setTimer]
      refine (countSended _ len).trans (setTimer ?_)
      rw [(countSended_keeps _ len s).1]
      exact (TIMER.Arming.getTimer hget).trans (.addTimer _ (Int.le_refl _) (Int.le_refl _))
    · cases h
  · cases h

end ArmsWithin

/-- The loop over the timers ends when none is due. -/
theorem timedTask_none {w : ℕ} {t : TimeValue} {len : ℤ} {s : World} (hT : (s.timer w).Sound)
    (h : timedTask w t len s = .ok none) : ∀ e ∈ (s.timer w).timerTimeArg.entries, t < e.1 := by
  unfold timedTask at h
  split at h
  · cases h
  · rename_i hget
    exact TIMER.none_due hT hget
  · dsimp only at h
    split at h
    · cases h
    · cases h
  · cases h

end Timers

end LinuxPrograms.C1000k
