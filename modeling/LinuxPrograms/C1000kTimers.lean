import LinuxPrograms.LibMultimap
import Mathlib.Data.Int.Order.Basic

/-! The `TIMER` class of the c1000k server (timers.h, timers.cc): two multimaps over the same
timers, one keyed by time and one by item. `Ptr` is `void *`; its order is whatever order
`std::less` gives addresses, so nothing below depends on which one. -/
namespace LinuxPrograms.C1000k
open Lib

/-- `long long` milliseconds. -/
abbrev TimeValue := ℤ

structure TIMER (Ptr : Type*) [LinearOrder Ptr] where
  timerArgTime : Multimap Ptr TimeValue
  timerTimeArg : Multimap TimeValue Ptr

namespace TIMER

variable {Ptr : Type*} [LinearOrder Ptr]

def empty : TIMER Ptr := ⟨Multimap.empty, Multimap.empty⟩

def addTimer (T : TIMER Ptr) (fditem : Ptr) (timeStamp : TimeValue) : TIMER Ptr where
  timerTimeArg := T.timerTimeArg.insert timeStamp fditem
  timerArgTime := T.timerArgTime.insert fditem timeStamp

/-- The outer `none` is `assert(0)`, the inner one the returned `NULL`. The values read through
the erased iterator are the erased pair's. -/
def getTimer (T : TIMER Ptr) (timeStamp : TimeValue) : Option (Option Ptr × TIMER Ptr) :=
  match h : T.timerTimeArg.entries with
  | [] => some (none, T)
  | iter :: rest =>
    if timeStamp < iter.1 then some (none, T)
    else
      match T.timerArgTime.eraseFirst iter.2 iter.1 with
      | some argTime => some (some iter.2,
          ⟨argTime, T.timerTimeArg.sublist rest (h ▸ List.sublist_cons_self iter rest)⟩)
      | none => none

/-- The outer loop of `remove_timer` from the position `pos_arg_time` on: what is left of
`timer_arg_time` there, and `timer_time_arg` after the inner loops. -/
def removeScan (fditem : Ptr) : List (Ptr × TimeValue) → Multimap TimeValue Ptr →
    List (Ptr × TimeValue) × Multimap TimeValue Ptr
  | [], timeArg => ([], timeArg)
  | pos :: l, timeArg =>
    if fditem < pos.1 then (pos :: l, timeArg)
    else removeScan fditem l (timeArg.eraseRange pos.2 (fun x => decide (x = fditem)))

theorem removeScan_sublist (fditem : Ptr) (l : List (Ptr × TimeValue))
    (timeArg : Multimap TimeValue Ptr) : (removeScan fditem l timeArg).1.Sublist l := by
  induction l generalizing timeArg with
  | nil => exact List.Sublist.refl _
  | cons pos l ih =>
    unfold removeScan
    split
    · exact List.Sublist.refl _
    · exact (ih _).cons pos

def removeTimer (T : TIMER Ptr) (fditem : Ptr) : TIMER Ptr where
  timerArgTime := T.timerArgTime.editFrom fditem
    (removeScan fditem (T.timerArgTime.lowerBound fditem) T.timerTimeArg).1
    (removeScan_sublist fditem _ _)
  timerTimeArg := (removeScan fditem (T.timerArgTime.lowerBound fditem) T.timerTimeArg).2

/-- The scan drops every pair of the item from the item index. -/
theorem removeScan_argTime (fditem : Ptr) (l : List (Ptr × TimeValue))
    (timeArg : Multimap TimeValue Ptr) (hs : l.Pairwise (fun a b => a.1 ≤ b.1))
    (hk : ∀ e ∈ l, fditem ≤ e.1) :
    (removeScan fditem l timeArg).1 = l.filter (fun e => decide (e.1 ≠ fditem)) := by
  induction l generalizing timeArg with
  | nil => rfl
  | cons pos l ih =>
    obtain ⟨hpos, hl⟩ := List.pairwise_cons.mp hs
    unfold removeScan
    split
    -- the scan stops at the first greater item, and only greater ones follow it
    · rename_i hlt
      refine (List.filter_eq_self.mpr fun b hb => ?_).symm
      have hb : fditem < b.1 := by
        rcases List.mem_cons.mp hb with rfl | hb
        · exact hlt
        · exact hlt.trans_le (hpos b hb)
      simpa using hb.ne'
    · rename_i hge
      have heq : pos.1 = fditem := le_antisymm (le_of_not_gt hge) (hk pos List.mem_cons_self)
      rw [ih _ hl (fun b hb => hk b (List.mem_cons_of_mem _ hb))]
      simp [heq]

/-- `remove_timer` erases the item's pairs from the item index, and no others. -/
theorem removeTimer_argTime (T : TIMER Ptr) (fditem : Ptr) :
    (T.removeTimer fditem).timerArgTime.entries =
      T.timerArgTime.entries.filter (fun e => decide (e.1 ≠ fditem)) := by
  have hbelow : (T.timerArgTime.below fditem).filter (fun e => decide (e.1 ≠ fditem)) =
      T.timerArgTime.below fditem :=
    List.filter_eq_self.mpr fun e he => by
      simpa using (T.timerArgTime.lt_of_mem_below fditem e he).ne
  change T.timerArgTime.below fditem ++ _ = _
  rw [removeScan_argTime fditem _ T.timerTimeArg (T.timerArgTime.lowerBound_sorted fditem)
    (T.timerArgTime.le_of_mem_lowerBound fditem), ← hbelow, ← List.filter_append,
    T.timerArgTime.below_append_lowerBound fditem]

/-- Each round of the scan erases, from the time index, the item's pairs of the round's time. -/
theorem removeScan_timeArg (fditem : Ptr) (l : List (Ptr × TimeValue))
    (timeArg : Multimap TimeValue Ptr) (hs : l.Pairwise (fun a b => a.1 ≤ b.1))
    (hk : ∀ e ∈ l, fditem ≤ e.1) :
    (removeScan fditem l timeArg).2.entries =
      timeArg.entries.filter (fun e => !(decide (e.2 = fditem) && decide ((e.2, e.1) ∈ l))) := by
  induction l generalizing timeArg with
  | nil => simp [removeScan]
  | cons pos l ih =>
    obtain ⟨hpos, hl⟩ := List.pairwise_cons.mp hs
    unfold removeScan
    split
    · rename_i hlt
      refine (List.filter_eq_self.mpr fun e _ => ?_).symm
      have hnot : e.2 = fditem → (e.2, e.1) ∉ pos :: l := by
        intro he hm
        rcases List.mem_cons.mp hm with rfl | hm
        · exact absurd hlt (by simp [he])
        · exact absurd (hlt.trans_le (hpos _ hm)) (by simp [he])
      by_cases he : e.2 = fditem
      · simp [hnot he]
      · simp [he]
    · rename_i hge
      have heq : pos.1 = fditem := le_antisymm (le_of_not_gt hge) (hk pos List.mem_cons_self)
      rw [ih _ hl (fun b hb => hk b (List.mem_cons_of_mem _ hb)), Multimap.eraseRange_entries,
        List.filter_filter]
      refine List.filter_congr fun e _ => ?_
      have hpe : (e.2, e.1) = pos ↔ e.2 = fditem ∧ e.1 = pos.2 := by
        rw [← heq]
        exact Prod.ext_iff
      by_cases he : e.2 = fditem
      · simp [he, List.mem_cons, show ((fditem, e.1) = pos ↔ e.1 = pos.2) by simpa [he] using hpe,
          Bool.and_comm]
      · simp [he]

end TIMER

/-! What the class is for: a set of timers, the pairs listed in the order they were armed. -/

namespace TimerSet

variable {Ptr : Type*} [DecidableEq Ptr]

/-- The first pair in arming order that no pair precedes in time. -/
def earliest (s : List (TimeValue × Ptr)) : Option (TimeValue × Ptr) :=
  s.find? (fun p => decide (∀ q ∈ s, p.1 ≤ q.1))

omit [DecidableEq Ptr] in
/-- The pairs nothing precedes are those of the least time. -/
theorem filter_least {s : List (TimeValue × Ptr)} {p : TimeValue × Ptr} (hp : p ∈ s)
    (hle : ∀ q ∈ s, p.1 ≤ q.1) :
    s.filter (fun a => decide (∀ q ∈ s, a.1 ≤ q.1)) = s.filter (fun a => decide (a.1 = p.1)) := by
  refine List.filter_congr fun a ha => ?_
  refine decide_eq_decide.mpr ⟨fun hall => ?_, fun heq q hq => heq ▸ hle q hq⟩
  exact le_antisymm (hall p hp) (hle a ha)

omit [DecidableEq Ptr] in
/-- The earliest pair, and no pair before it. -/
theorem earliest_spec {s : List (TimeValue × Ptr)} {p : TimeValue × Ptr}
    (h : earliest s = some p) : p ∈ s ∧ ∀ q ∈ s, p.1 ≤ q.1 := by
  have hall := List.find?_some h
  exact ⟨List.mem_of_find?_eq_some h, of_decide_eq_true hall⟩

/-- The earliest pair is the first of its time. -/
theorem earliest_first {s : List (TimeValue × Ptr)} {p : TimeValue × Ptr}
    (h : earliest s = some p) :
    s.filter (fun e => decide (e.1 = p.1)) =
      p :: (s.erase p).filter (fun e => decide (e.1 = p.1)) := by
  obtain ⟨hp, hle⟩ := earliest_spec h
  have hhead : (s.filter (fun a => decide (a.1 = p.1))).head? = some p := by
    rw [← filter_least hp hle, List.head?_filter]
    exact h
  obtain ⟨rest, hrest⟩ := List.head?_eq_some_iff.mp hhead
  rw [← List.erase_filter, hrest, List.erase_cons_head]

def get (s : List (TimeValue × Ptr)) (now : TimeValue) :
    Option Ptr × List (TimeValue × Ptr) :=
  match earliest s with
  | none => (none, s)
  | some p => if p.1 ≤ now then (some p.2, s.erase p) else (none, s)

def remove (s : List (TimeValue × Ptr)) (fditem : Ptr) : List (TimeValue × Ptr) :=
  s.filter (fun p => decide (p.2 ≠ fditem))

end TimerSet

inductive TimerOp (Ptr : Type*)
  | add (fditem : Ptr) (timeStamp : TimeValue)
  | get (timeStamp : TimeValue)
  | remove (fditem : Ptr)

section Refinement

variable {Ptr : Type*} [LinearOrder Ptr]

/-- One call on the class, with what `get_timer` returned. -/
def TIMER.call (T : TIMER Ptr) : TimerOp Ptr → Option (Option Ptr × TIMER Ptr)
  | .add fditem timeStamp => some (none, T.addTimer fditem timeStamp)
  | .get timeStamp => T.getTimer timeStamp
  | .remove fditem => some (none, T.removeTimer fditem)

def TimerSet.call (s : List (TimeValue × Ptr)) :
    TimerOp Ptr → Option Ptr × List (TimeValue × Ptr)
  | .add fditem timeStamp => (none, s ++ [(timeStamp, fditem)])
  | .get timeStamp => TimerSet.get s timeStamp
  | .remove fditem => (none, TimerSet.remove s fditem)

def TIMER.calls (T : TIMER Ptr) : List (TimerOp Ptr) → Option (List (Option Ptr) × TIMER Ptr)
  | [] => some ([], T)
  | op :: ops => do
    let (r, T') ← T.call op
    let (rs, T'') ← T'.calls ops
    return (r :: rs, T'')

def TimerSet.calls (s : List (TimeValue × Ptr)) :
    List (TimerOp Ptr) → List (Option Ptr) × List (TimeValue × Ptr)
  | [] => ([], s)
  | op :: ops =>
    let (r, s') := TimerSet.call s op
    let (rs, s'') := TimerSet.calls s' ops
    (r :: rs, s'')

/-- Both indexes hold the pairs of `s`, the time index with equal times in arming order. -/
structure TIMER.Represents (T : TIMER Ptr) (s : List (TimeValue × Ptr)) : Prop where
  timeArg : T.timerTimeArg.Arranges s
  argTime : (T.timerArgTime.entries.map Prod.swap).Perm s

namespace TIMER.Represents

variable {T : TIMER Ptr} {s : List (TimeValue × Ptr)}

theorem mem_argTime (h : T.Represents s) (x : Ptr) (t : TimeValue) :
    (x, t) ∈ T.timerArgTime.entries ↔ (t, x) ∈ s := by
  rw [← h.argTime.mem_iff, List.mem_map]
  constructor
  · intro hm
    exact ⟨(x, t), hm, rfl⟩
  · rintro ⟨⟨a, b⟩, hm, heq⟩
    obtain ⟨rfl, rfl⟩ := Prod.ext_iff.mp heq
    exact hm

theorem empty : (TIMER.empty : TIMER Ptr).Represents [] :=
  ⟨Multimap.arranges_empty, List.Perm.refl _⟩

theorem addTimer (h : T.Represents s) (x : Ptr) (t : TimeValue) :
    (T.addTimer x t).Represents (s ++ [(t, x)]) where
  timeArg := h.timeArg.insert t x
  argTime := by
    have hp := (T.timerArgTime.insert_perm x t).map Prod.swap
    refine hp.trans ?_
    exact (h.argTime.cons (t, x)).trans (List.perm_append_singleton _ _).symm

/-- The front of the time index is the earliest timer. -/
theorem earliest_eq (h : T.Represents s) : TimerSet.earliest s = T.timerTimeArg.entries.head? := by
  unfold TimerSet.earliest
  cases hm : T.timerTimeArg.entries with
  | nil =>
    have hs : s = [] := by simpa [hm] using h.timeArg.perm
    rw [hs]
    rfl
  | cons p rest =>
    have hle := h.timeArg.head_le hm
    have hp : p ∈ s := (h.timeArg.mem_iff p).mp (hm ▸ List.mem_cons_self)
    have hcongr := TimerSet.filter_least hp hle
    rw [← List.head?_filter, hcongr, ← h.timeArg p.1, hm]
    simp

theorem getTimer (h : T.Represents s) (now : TimeValue) :
    ∃ T', T.getTimer now = some ((TimerSet.get s now).1, T') ∧
      T'.Represents (TimerSet.get s now).2 := by
  have hfront := h.earliest_eq
  unfold TIMER.getTimer TimerSet.get
  rw [hfront]
  split
  · rename_i hm
    refine ⟨T, ?_, ?_⟩ <;> simp only [hm, List.head?_nil]
    exact h
  · rename_i p rest hm
    simp only [hm, List.head?_cons]
    by_cases hlt : now < p.1
    · rw [if_pos hlt, if_neg (not_le.mpr hlt)]
      exact ⟨T, rfl, h⟩
    · rw [if_neg hlt, if_pos (le_of_not_gt hlt)]
      have hp : p ∈ s := (h.timeArg.mem_iff p).mp (hm ▸ List.mem_cons_self)
      have hfind := T.timerArgTime.eraseFirst_eq p.2 p.1
      rw [if_pos ((h.mem_argTime p.2 p.1).mpr hp)] at hfind
      obtain ⟨argTime, hfirst, hentries⟩ := Option.map_eq_some_iff.mp hfind
      rw [hfirst]
      refine ⟨_, rfl, h.timeArg.tail hm rfl, ?_⟩
      change (argTime.entries.map Prod.swap).Perm (s.erase p)
      have hswap : (T.timerArgTime.entries.erase (p.2, p.1)).map Prod.swap =
          (T.timerArgTime.entries.map Prod.swap).erase p :=
        List.map_erase Prod.swap_injective _
      rw [hentries, hswap]
      exact h.argTime.erase p

/-- From a set of timers, `remove_timer` erases the item's pairs from the time index. -/
theorem removeTimer_timeArg (h : T.Represents s) (x : Ptr) :
    (T.removeTimer x).timerTimeArg.entries =
      T.timerTimeArg.entries.filter (fun e => decide (e.2 ≠ x)) := by
  have hscan := removeScan_timeArg x _ T.timerTimeArg (T.timerArgTime.lowerBound_sorted x)
    (T.timerArgTime.le_of_mem_lowerBound x)
  refine hscan.trans (List.filter_congr fun e he => ?_)
  by_cases hx : e.2 = x
  · have hm : (e.2, e.1) ∈ T.timerArgTime.lowerBound x := by
      rw [hx, Multimap.mem_lowerBound_iff, ← hx, h.mem_argTime]
      exact (h.timeArg.mem_iff e).mp he
    simp [hx, hx ▸ hm]
  · simp [hx]

theorem removeTimer (h : T.Represents s) (x : Ptr) :
    (T.removeTimer x).Represents (TimerSet.remove s x) where
  timeArg := h.timeArg.filter _ (h.removeTimer_timeArg x)
  argTime := by
    rw [T.removeTimer_argTime, show (fun e : Ptr × TimeValue => decide (e.1 ≠ x)) =
      (fun p : TimeValue × Ptr => decide (p.2 ≠ x)) ∘ Prod.swap from rfl, ← List.filter_map]
    exact h.argTime.filter _

/-- Every call answers as the timer set does and keeps representing it. -/
theorem call (h : T.Represents s) (op : TimerOp Ptr) :
    ∃ T', T.call op = some ((TimerSet.call s op).1, T') ∧
      T'.Represents (TimerSet.call s op).2 := by
  cases op with
  | add x t => exact ⟨_, rfl, h.addTimer x t⟩
  | get now => exact h.getTimer now
  | remove x => exact ⟨_, rfl, h.removeTimer x⟩

theorem calls (h : T.Represents s) (ops : List (TimerOp Ptr)) :
    ∃ T', T.calls ops = some ((TimerSet.calls s ops).1, T') ∧
      T'.Represents (TimerSet.calls s ops).2 := by
  induction ops generalizing T s with
  | nil => exact ⟨T, rfl, h⟩
  | cons op ops ih =>
    obtain ⟨T₁, hcall, h₁⟩ := h.call op
    obtain ⟨T₂, hcalls, h₂⟩ := ih h₁
    refine ⟨T₂, ?_, h₂⟩
    simp only [TIMER.calls, TimerSet.calls, hcall, hcalls, Option.bind_eq_bind, Option.bind_some]
    rfl

end TIMER.Represents

/-- The class is a timer set: every sequence of calls on a new `TIMER` runs without reaching the
assertion, answers as the timer set does, and leaves both indexes holding exactly its pairs. -/
theorem timer_refines_timerSet (ops : List (TimerOp Ptr)) :
    ∃ T : TIMER Ptr, TIMER.empty.calls ops = some ((TimerSet.calls [] ops).1, T) ∧
      T.timerTimeArg.entries.Perm (TimerSet.calls [] ops).2 ∧
      (T.timerArgTime.entries.map Prod.swap).Perm (TimerSet.calls [] ops).2 := by
  obtain ⟨T, hcalls, hT⟩ := TIMER.Represents.empty.calls ops
  exact ⟨T, hcalls, hT.timeArg.perm, hT.argTime⟩

end Refinement

end LinuxPrograms.C1000k
