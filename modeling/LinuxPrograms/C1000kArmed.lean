import LinuxPrograms.C1000kRounds

/-! Every client of a worker has one timer and every timer has a client. Registering a client
arms its item, a timer that fires is armed again, and closing a client removes it; the removal
`process_one_event` makes first is by another address and does nothing. -/
namespace LinuxPrograms.C1000k
open Lib

/-- The item of a registered client. -/
structure FDITEM.IsClient (p : FDITEM) : Prop where
  readfun : p.mReadfun = some .clientReadfun
  writefun : p.mWritefun = some .clientWritefun
  closefun : p.mClosefun = some .clientClosefun
  timeoutfun : p.mTimeoutfun = some .clientTimeoutfun

/-- The item of a worker's end of its socketpair. -/
structure FDITEM.IsOrder (p : FDITEM) : Prop where
  readfun : p.mReadfun = some .readfunGetConnections
  writefun : p.mWritefun = none
  closefun : p.mClosefun = none

/-- What the callbacks of a client never change in its item. -/
def FDITEM.funs (p : FDITEM) :
    Option Callback × Option Callback × Option Callback × Option TimeoutCallback × ℕ :=
  (p.mReadfun, p.mWritefun, p.mClosefun, p.mTimeoutfun, p.fd)

theorem FDITEM.IsClient.congr {p p' : FDITEM} (h : p.IsClient) (hf : p'.funs = p.funs) :
    p'.IsClient := by
  simp only [funs, Prod.mk.injEq] at hf
  obtain ⟨hr, hw, hc, ht, _⟩ := hf
  exact ⟨hr.trans h.readfun, hw.trans h.writefun, hc.trans h.closefun, ht.trans h.timeoutfun⟩

theorem FDITEM.IsOrder.congr {p p' : FDITEM} (h : p.IsOrder) (hf : p'.funs = p.funs) :
    p'.IsOrder := by
  simp only [funs, Prod.mk.injEq] at hf
  obtain ⟨hr, hw, hc, _, _⟩ := hf
  exact ⟨hr.trans h.readfun, hw.trans h.writefun, hc.trans h.closefun⟩

theorem FDITEM.client_isClient (p : FDITEM) : p.client.IsClient := ⟨rfl, rfl, rfl, rfl⟩

section Timers

variable [LinearOrder VoidPtr]

/-- The timers of `T` are the items of `clients`, one each. -/
def TIMER.Arms (T : TIMER VoidPtr) (clients : List ℕ) : Prop :=
  ∃ l, T.Represents l ∧ (l.map Prod.snd).Perm (clients.map VoidPtr.item)

namespace TIMER.Arms

variable {T : TIMER VoidPtr} {clients : List ℕ}

theorem perms (h : T.Arms clients) :
    (T.timerArgTime.entries.map Prod.fst).Perm (clients.map VoidPtr.item) ∧
      (T.timerTimeArg.entries.map Prod.snd).Perm (clients.map VoidPtr.item) := by
  obtain ⟨l, hrep, hperm⟩ := h
  have harg := hrep.argTime.map Prod.snd
  rw [List.map_map] at harg
  exact ⟨harg.trans hperm, (hrep.timeArg.perm.map Prod.snd).trans hperm⟩

theorem empty : (TIMER.empty : TIMER VoidPtr).Arms [] := ⟨[], .empty, .nil⟩

theorem addTimer (h : T.Arms clients) (fd : ℕ) (t : TimeValue) :
    (T.addTimer (.item fd) t).Arms (clients ++ [fd]) := by
  obtain ⟨l, hrep, hperm⟩ := h
  refine ⟨_, hrep.addTimer (.item fd) t, ?_⟩
  rw [List.map_append, List.map_append]
  exact hperm.append_right _

/-- The address of a cell is never armed. -/
theorem removeCell (h : T.Arms clients) (fd : ℕ) : (T.removeTimer (.cell fd)).Arms clients := by
  obtain ⟨l, hrep, hperm⟩ := h
  have hnone : TimerSet.remove l (.cell fd) = l := by
    apply List.filter_eq_self.mpr
    intro p hp
    have hmem := hperm.subset (List.mem_map_of_mem hp)
    obtain ⟨i, _, hi⟩ := List.mem_map.mp hmem
    rw [← hi]
    exact decide_eq_true VoidPtr.noConfusion
  refine ⟨l, ?_, hperm⟩
  have hremoved := hrep.removeTimer (.cell fd)
  rwa [hnone] at hremoved

theorem removeItem (h : T.Arms clients) (fd : ℕ) :
    (T.removeTimer (.item fd)).Arms (clients.filter (· ≠ fd)) := by
  obtain ⟨l, hrep, hperm⟩ := h
  refine ⟨_, hrep.removeTimer (.item fd), ?_⟩
  have hl : (TimerSet.remove l (.item fd)).map Prod.snd =
      (l.map Prod.snd).filter (fun x => decide (x ≠ .item fd)) := by
    rw [List.filter_map]
    rfl
  have hc : (clients.filter (· ≠ fd)).map VoidPtr.item =
      (clients.map VoidPtr.item).filter (fun x => decide (x ≠ .item fd)) := by
    rw [List.filter_map]
    congr 1
    apply List.filter_congr
    intro i _
    simp
  rw [hl, hc]
  exact hperm.filter _

/-- A timer that is due belongs to a client; without it the others stay armed. -/
theorem getTimer (h : T.Arms clients) (now : TimeValue) :
    (∃ T', T.getTimer now = some (none, T')) ∨
      ∃ fd ∈ clients, ∃ T', T.getTimer now = some (some (.item fd), T') ∧
        ∀ t, (T'.addTimer (.item fd) t).Arms clients := by
  obtain ⟨l, hrep, hperm⟩ := h
  obtain ⟨T', hget, hrep'⟩ := hrep.getTimer now
  unfold TimerSet.get at hget hrep'
  split at hget
  · exact Or.inl ⟨T', hget⟩
  · rename_i p hfind
    split at hget
    · rename_i hle
      rw [hfind] at hrep'
      simp only [if_pos hle] at hrep'
      have hp : p ∈ l := List.mem_of_find?_eq_some hfind
      obtain ⟨fd, hfd, hitem⟩ := List.mem_map.mp (hperm.subset (List.mem_map_of_mem hp))
      refine Or.inr ⟨fd, hfd, T', by rw [hget, hitem], fun t => ⟨_, hrep'.addTimer _ t, ?_⟩⟩
      refine List.Perm.trans ?_ hperm
      have hcons := ((List.perm_cons_erase hp).map Prod.snd).symm
      rw [List.map_cons, ← hitem] at hcons
      rw [List.map_append]
      exact (List.perm_append_singleton _ _).trans hcons
    · exact Or.inl ⟨T', hget⟩

end TIMER.Arms

end Timers

end LinuxPrograms.C1000k
