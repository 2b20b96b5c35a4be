import LinuxPrograms.EpollTcpClients

/-! The bounds of the client array. Neither `add_clilist` nor `del_clilist` checks one, so the
index is what the run makes of it: the accepts less the reported failures. -/
namespace LinuxPrograms.EpollTcp
open Lib

/-- The indexes the inner loop of `del_clilist` writes and reads, along `delScan`. -/
def delMoved (fd tailindex : ℕ) : ℕ → ℕ → (ℕ → Clientmember) → List ℕ
  | _, 0, _ => []
  | i, n+1, a =>
    if (a i).fd = fd then
      (List.range' i (tailindex-1-i)).flatMap (fun j => [j, j+1]) ++
        delMoved fd tailindex (i+1) n (shiftDown a i (tailindex-1-i))
    else delMoved fd tailindex (i+1) n a

/-- The indexes of `clilist[]` a step writes to, or moves a client from or to. -/
def touched (c : Clilist) : ClientAct → List ℤ
  | .accept _ _ => [c.tailindex]
  | .read fd n | .write fd n =>
    if n.Fails then
      (delMoved fd c.tailindex.toNat 0 c.tailindex.toNat c.clilist).map Int.ofNat
    else []

def InRange (tailindex : ℤ) : Prop := 0 ≤ tailindex ∧ tailindex ≤ maxConnect

/-- Every step of the run stays inside the array. -/
def StaysInside (tr : List (Clients × ClientAct)) : Prop :=
  ∀ p ∈ tr, ∀ x ∈ touched p.1.list p.2, 0 ≤ x ∧ x < maxConnect

/-- The index is in its range in every state of the run, and every step stays inside the array. -/
def InBounds (tr : List (Clients × ClientAct)) (s : Clients) : Prop :=
  Throughout (fun s => InRange s.list.tailindex) tr s ∧ StaysInside tr

def ClientAct.isAccept : ClientAct → Bool
  | .accept _ _ => true
  | _ => false

def ClientAct.isFailure : ClientAct → Bool
  | .accept _ _ => false
  | .read _ n | .write _ n => decide n.Fails

/-- At every moment no more failures have been reported than clients accepted, and no more than the
array's length fewer. -/
def Balanced (acts : List ClientAct) : Prop :=
  ∀ pre, pre <+: acts → pre.countP ClientAct.isFailure ≤ pre.countP ClientAct.isAccept ∧
    pre.countP ClientAct.isAccept ≤ pre.countP ClientAct.isFailure+maxConnect

/-- What the steps add to `tailindex`. -/
def net (acts : List ClientAct) : ℤ :=
  acts.countP ClientAct.isAccept-acts.countP ClientAct.isFailure

theorem net_cons (a : ClientAct) (acts : List ClientAct) : net (a :: acts) = net [a]+net acts := by
  unfold net
  rw [List.countP_cons, List.countP_cons, List.countP_singleton, List.countP_singleton]
  split <;> split <;> push_cast <;> omega

theorem delMoved_lt {fd tailindex i n : ℕ} {a : ℕ → Clientmember} {x : ℕ}
    (h : x ∈ delMoved fd tailindex i n a) : x < tailindex := by
  induction n generalizing i a with
  | zero => cases h
  | succ n ih =>
    rw [delMoved] at h
    split at h
    · rcases List.mem_append.mp h with h | h
      · obtain ⟨j, hj, hx⟩ := List.mem_flatMap.mp h
        rw [List.mem_range'_1] at hj
        rw [List.mem_pair] at hx
        omega
      · exact ih h
    · exact ih h

/-- Deleting moves elements below the index only. -/
theorem touched_failure {c : Clilist} {a : ClientAct} {fd : ℕ} {n : IoRet}
    (ha : a = .read fd n ∨ a = .write fd n) {x : ℤ} (hx : x ∈ touched c a) :
    0 ≤ x ∧ x < c.tailindex := by
  have hmoved : x ∈ (delMoved fd c.tailindex.toNat 0 c.tailindex.toNat c.clilist).map
      Int.ofNat := by
    rcases ha with rfl | rfl
    all_goals
      simp only [touched] at hx
      split at hx
      · exact hx
      · cases hx
  obtain ⟨j, hj, rfl⟩ := List.mem_map.mp hmoved
  have hlt := delMoved_lt hj
  rw [Int.ofNat_eq_natCast]
  omega

theorem net_io {a : ClientAct} {fd : ℕ} {n : IoRet} (ha : a = .read fd n ∨ a = .write fd n) :
    net [a] = if n.Fails then -1 else 0 := by
  by_cases hn : n.Fails <;>
    rcases ha with rfl | rfl <;> simp [net, ClientAct.isAccept, ClientAct.isFailure, hn]

theorem opIo_tailindex (c : Clilist) (fd : ℕ) (n : IoRet) :
    (opIo c fd n).2.tailindex = c.tailindex+if n.Fails then -1 else 0 := by
  rw [opIo_clilist]
  split
  · rfl
  · exact (Int.add_zero _).symm

/-- While the index is in range, a step stays inside the array and leaves the index in range exactly
when what the step stands for leaves it there. -/
theorem bounds_step {s s' : Clients} {a : ClientAct} (hs : InRange s.list.tailindex)
    (h : nextClients s a = some s') :
    (InRange s'.list.tailindex ∧ ∀ x ∈ touched s.list a, 0 ≤ x ∧ x < maxConnect) ↔
      InRange (s.list.tailindex+net [a]) := by
  obtain ⟨fd, ip, rfl, -, ⟨list, hadd, rfl⟩ | ⟨hadd, rfl⟩⟩ | ⟨fd, n, ha, rfl⟩ := nextClients_cases h
  -- an accept that writes inside the array, at the index
  · unfold addClilist at hadd
    split at hadd <;> cases hadd
    next hroom =>
      refine and_iff_left fun x hx => ?_
      cases List.mem_singleton.mp hx
      exact hroom
  -- an accept that overruns it
  · have hfull : ¬ (0 ≤ s.list.tailindex ∧ s.list.tailindex < maxConnect) := by
      intro hroom
      rw [addClilist, if_pos hroom] at hadd
      cases hadd
    have hnet : net [.accept fd ip] = 1 := rfl
    apply iff_of_false
    · rintro ⟨_, hinside⟩
      exact hfull (hinside _ (List.mem_singleton_self _))
    · rw [hnet]
      rintro ⟨hlow, hhigh⟩
      exact hfull ⟨hs.1, by omega⟩
  -- an operation, which moves elements below the index only
  · rw [net_io ha, ← opIo_tailindex s.list fd n]
    refine and_iff_left fun x hx => ?_
    obtain ⟨hlow, hhigh⟩ := touched_failure ha hx
    exact ⟨hlow, lt_of_lt_of_le hhigh hs.2⟩

/-- The index afterwards, unless the step has overrun the array. -/
theorem tailindex_step {s s' : Clients} {a : ClientAct} (hs : InRange s.list.tailindex)
    (hnet : InRange (s.list.tailindex+net [a])) (h : nextClients s a = some s') :
    s'.list.tailindex = s.list.tailindex+net [a] := by
  obtain ⟨fd, ip, rfl, -, ⟨list, hadd, rfl⟩ | ⟨hadd, rfl⟩⟩ | ⟨fd, n, ha, rfl⟩ := nextClients_cases h
  · unfold addClilist at hadd
    split at hadd <;> cases hadd
    rfl
  · have hone : net [.accept fd ip] = 1 := rfl
    have hroom : 0 ≤ s.list.tailindex ∧ s.list.tailindex < maxConnect := by
      rw [hone] at hnet
      exact ⟨hs.1, by have := hnet.2; omega⟩
    rw [addClilist, if_pos hroom] at hadd
    cases hadd
  · rw [net_io ha]
    exact opIo_tailindex s.list fd n

/-- The run stays in bounds exactly when, from the index it starts with, its steps add up to an
index in range at every moment. The induction is on the run. -/
theorem inBounds_iff_net {s s' : Clients} {tr : List (Clients × ClientAct)}
    (h : Run nextClients s tr s') (hs : InRange s.list.tailindex) :
    InBounds tr s' ↔ ∀ pre, pre <+: tr.map Prod.snd → InRange (s.list.tailindex+net pre) := by
  have hnil : net [] = 0 := rfl
  induction h with
  | nil s =>
    refine iff_of_true ⟨⟨nofun, hs⟩, nofun⟩ fun pre hpre => ?_
    rw [List.prefix_nil.mp hpre, hnil, Int.add_zero]
    exact hs
  | @cons s t u a tr hst hr ih =>
    have hstep := bounds_step hs hst
    rw [InBounds, throughout_cons, StaysInside, List.forall_mem_cons]
    constructor
    -- the run is in bounds: so is the first step, and by induction the rest
    · rintro ⟨⟨_, htail⟩, hinside, hrest⟩ pre hpre
      have ht := hr.throughout_first htail
      have hnet := hstep.mp ⟨ht, hinside⟩
      rcases List.prefix_cons_iff.mp hpre with rfl | ⟨pre, rfl, hpre'⟩
      · rw [hnil, Int.add_zero]
        exact hs
      · rw [net_cons, ← Int.add_assoc, ← tailindex_step hs hnet hst]
        exact (ih ht).mp ⟨htail, hrest⟩ pre hpre'
    -- the first step is the prefix of length one
    · intro hall
      have hnet := hall [a] (List.prefix_cons_iff.mpr (Or.inr ⟨[], rfl, List.nil_prefix⟩))
      obtain ⟨ht, hinside⟩ := hstep.mpr hnet
      have hrest : InBounds tr u := by
        apply (ih ht).mpr
        intro pre hpre
        rw [tailindex_step hs hnet hst, Int.add_assoc, ← net_cons]
        exact hall (a :: pre) (List.prefix_cons_iff.mpr (Or.inr ⟨pre, rfl, hpre⟩))
      exact ⟨⟨hs, hrest.1⟩, hinside, hrest.2⟩

/-- A run stays in bounds exactly when its accepts and reported failures balance. -/
theorem in_bounds_iff_balanced (tr : List (Clients × ClientAct)) (s : Clients)
    (h : Run nextClients .start tr s) : InBounds tr s ↔ Balanced (tr.map Prod.snd) := by
  have hzero : Clients.start.list.tailindex = 0 := rfl
  have hstart : InRange Clients.start.list.tailindex := ⟨Int.le_refl 0, Int.natCast_nonneg _⟩
  rw [inBounds_iff_net h hstart, hzero, Balanced]
  apply forall₂_congr
  intro pre hpre
  rw [Int.zero_add, InRange, net]
  omega

/-- A client is accepted and goes away. -/
theorem in_bounds_iff_balanced_one :
    InBounds (trace nextClients .start [.accept 5 "10.0.0.1", .read 5 (.count 0)])
        ((exec nextClients .start [.accept 5 "10.0.0.1", .read 5 (.count 0)]).get rfl) ↔
      Balanced [.accept 5 "10.0.0.1", .read 5 (.count 0)] :=
  in_bounds_iff_balanced _ _ (.of_exec (Option.some_get _).symm)

/-- Its descriptor is reported failed twice, by `op_read` and by `op_write`. -/
def failedTwice : Clients :=
  (exec nextClients .start [.accept 5 "10.0.0.1", .read 5 .error, .write 5 .error]).get rfl

theorem index_not_always_in_bounds :
    ¬ ∀ (tr : List (Clients × ClientAct)) (s : Clients), Run nextClients .start tr s →
      InBounds tr s := by
  intro hall
  have hrange := (hall _ failedTwice (.of_exec (Option.some_get _).symm)).1.2.1
  exact absurd hrange (by decide)

end LinuxPrograms.EpollTcp
