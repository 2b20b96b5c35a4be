import LinuxPrograms.LibArrays
import LinuxPrograms.LibRuns
import Mathlib.Data.Int.Order.Basic

/-! The client list of the epoll TCP server (op_epoll.c): `add_clilist`, `del_clilist`, and how
`op_read` and `op_write` delist a client. Deleting shifts the list down in place and shortens it
whatever it found, so the list is exact as long as every failure is reported once. -/
namespace LinuxPrograms.EpollTcp
open Lib

def maxConnect : ℕ := 256

structure Clientmember where
  fd : ℕ
  ip : String

structure Clilist where
  clilist : ℕ → Clientmember
  tailindex : ℤ

/-- The zero-initialised global. -/
def Clilist.zero : Clilist := ⟨fun _ => ⟨0, ""⟩, 0⟩

/-- `none` is a write outside the array. -/
def addClilist (c : Clilist) (cli : Clientmember) : Option Clilist :=
  if 0 ≤ c.tailindex ∧ c.tailindex < maxConnect then
    some ⟨Function.update c.clilist c.tailindex.toNat cli, c.tailindex+1⟩
  else none

/-- The scan of `del_clilist` from index `i` on, with `n` indexes to go; the inner loop moves the
rest of the list down. -/
def delScan (fd tailindex : ℕ) : ℕ → ℕ → (ℕ → Clientmember) → ℕ → Clientmember
  | _, 0, a => a
  | i, n+1, a =>
    delScan fd tailindex (i+1) n (if (a i).fd = fd then shiftDown a i (tailindex-1-i) else a)

/-- Of its argument only the descriptor is read. -/
def delClilist (c : Clilist) (fd : ℕ) : Clilist :=
  ⟨delScan fd c.tailindex.toNat 0 c.tailindex.toNat c.clilist, c.tailindex-1⟩

/-- What `read` and `write` return. -/
inductive IoRet
  | count (n : ℕ)
  | eagain
  | error
deriving DecidableEq, Repr

/-- The results on which the client is delisted. -/
def IoRet.Fails (r : IoRet) : Prop := r = .count 0 ∨ r = .error

instance (r : IoRet) : Decidable r.Fails := by
  unfold IoRet.Fails
  infer_instance

/-- The common body of `op_read` and `op_write`; they differ in the call and in what they print. -/
def opIo (c : Clilist) (fd : ℕ) : IoRet → ℤ × Clilist
  | .eagain => (-1, c)
  | .count 0 => (-2, delClilist c fd)
  | .error => (-3, delClilist c fd)
  | .count n => (n, c)

def opRead (c : Clilist) (fd : ℕ) (n : IoRet) : ℤ × Clilist := opIo c fd n

def opWrite (c : Clilist) (fd : ℕ) (n : IoRet) : ℤ × Clilist := opIo c fd n

theorem opIo_clilist (c : Clilist) (fd : ℕ) (r : IoRet) :
    (opIo c fd r).2 = if r.Fails then delClilist c fd else c := by
  cases r with
  | count n =>
    cases n with
    | zero => rfl
    | succ n => simp [opIo, IoRet.Fails]
  | eagain => simp [opIo, IoRet.Fails]
  | error => simp [opIo, IoRet.Fails]

/-- The list, and what it is meant to hold: the accepted descriptors in order, less those reported
failed since. `overrun` is set by a write outside the array. -/
structure Clients where
  list : Clilist
  accepted : List ℕ
  live : List ℕ
  overrun : Bool

def Clients.start : Clients := ⟨.zero, [], [], false⟩

inductive ClientAct
  | accept (fd : ℕ) (ip : String)
  | read (fd : ℕ) (n : IoRet)
  | write (fd : ℕ) (n : IoRet)

def removeFailed (live : List ℕ) (fd : ℕ) (n : IoRet) : List ℕ :=
  if n.Fails then live.filter (· ≠ fd) else live

/-- The server never closes a descriptor, so `accept` never returns one it returned before. -/
def nextClients (s : Clients) (a : ClientAct) : Option Clients :=
  if s.overrun then none
  else
    match a with
    | .accept fd ip =>
      if fd ∈ s.accepted then none
      else
        match addClilist s.list ⟨fd, ip⟩ with
        | some list => some ⟨list, s.accepted ++ [fd], s.live ++ [fd], false⟩
        | none => some ⟨s.list, s.accepted ++ [fd], s.live ++ [fd], true⟩
    | .read fd n =>
      some { s with list := (opRead s.list fd n).2, live := removeFailed s.live fd n }
    | .write fd n =>
      some { s with list := (opWrite s.list fd n).2, live := removeFailed s.live fd n }

/-- `clilist[0..tailindex)` as descriptors. -/
def Clilist.fds (c : Clilist) : List ℕ := view (fun i => (c.clilist i).fd) c.tailindex.toNat

/-- The list holds exactly the live clients, in accept order. -/
structure Exact (s : Clients) : Prop where
  tailindex : s.list.tailindex = s.live.length
  fds : s.list.fds = s.live
  inside : s.overrun = false

/-- The condition on a step: there is room for an accepted client, and a client reported failed is
still listed. -/
def RoomOrListed (s : Clients) : ClientAct → Prop
  | .accept _ _ => s.live.length < maxConnect
  | .read fd n => n.Fails → fd ∈ s.live
  | .write fd n => n.Fails → fd ∈ s.live

/-! What the scan does to a list of distinct descriptors. -/

theorem delScan_absent {fd tailindex i n : ℕ} {a : ℕ → Clientmember}
    (h : ∀ j, i ≤ j → j < i+n → (a j).fd ≠ fd) : delScan fd tailindex i n a = a := by
  induction n generalizing i with
  | zero => rfl
  | succ n ih =>
    rw [delScan, if_neg (h i (Nat.le_refl i) (by omega))]
    exact ih fun j hij hj => h j (by omega) (by omega)

theorem delScan_present {fd tailindex k i n : ℕ} {a : ℕ → Clientmember} (hn : i+n = tailindex)
    (hik : i ≤ k) (hk : k < tailindex) (hfd : (a k).fd = fd)
    (h : ∀ j < tailindex, (a j).fd = fd → j = k) :
    delScan fd tailindex i n a = shiftDown a k (tailindex-1-k) := by
  induction n generalizing i with
  | zero => omega
  | succ n ih =>
    rw [delScan]
    by_cases hi : i = k
    · subst hi
      rw [if_pos hfd]
      -- what moves down into the rest of the scan are the other clients
      apply delScan_absent
      intro j hij hj heq
      rw [shiftDown_apply] at heq
      split at heq
      · have := h (j+1) (by omega) heq
        omega
      · have := h j (by omega) heq
        omega
    · have hne : (a i).fd ≠ fd := fun heq => hi (h i (by omega) heq)
      rw [if_neg hne]
      exact ih (by omega) (by omega)

theorem filter_ne_eq_erase {l : List ℕ} (hl : l.Nodup) (x : ℕ) : l.filter (· ≠ x) = l.erase x := by
  rw [hl.erase_eq_filter]
  apply List.filter_congr
  intro i _
  simp only [bne, decide_not]
  rfl

/-- Delisting a listed client takes it out and keeps the others in order. -/
theorem delClilist_fds {c : Clilist} {fd : ℕ} (hnodup : c.fds.Nodup) (hfd : fd ∈ c.fds) :
    (delClilist c fd).fds = c.fds.filter (· ≠ fd) := by
  obtain ⟨k, hk, heq⟩ := mem_view.mp hfd
  have hlen : c.fds.length = c.tailindex.toNat := view_length _ _
  have hget : ∀ i (hi : i < c.tailindex.toNat), c.fds[i] = (c.clilist i).fd :=
    fun i hi => view_getElem _ _ _ _
  -- the descriptors of an exact list are distinct, so the scan meets this one once
  have hunique : ∀ j < c.tailindex.toNat, (c.clilist j).fd = fd → j = k := by
    intro j hj hjfd
    have hjk : c.fds[j] = c.fds[k] := by rw [hget j hj, hget k hk, hjfd, heq]
    exact (List.Nodup.getElem_inj_iff hnodup).mp hjk
  have hscan : delScan fd c.tailindex.toNat 0 c.tailindex.toNat c.clilist =
      shiftDown c.clilist k (c.tailindex.toNat-1-k) :=
    delScan_present (by omega) (Nat.zero_le k) hk heq hunique
  have hshift : (fun i => (shiftDown c.clilist k (c.tailindex.toNat-1-k) i).fd) =
      shiftDown (fun i => (c.clilist i).fd) k (c.tailindex.toNat-1-k) := by
    funext i
    rw [shiftDown_apply, shiftDown_apply]
    split <;> rfl
  have htail : (c.tailindex-1).toNat = c.tailindex.toNat-1 := by omega
  calc (delClilist c fd).fds
      = view (fun i => (shiftDown c.clilist k (c.tailindex.toNat-1-k) i).fd)
          (c.tailindex.toNat-1) := by rw [Clilist.fds, delClilist, hscan, htail]
    _ = c.fds.eraseIdx k := by rw [hshift, view_shiftDown _ _ _ hk]; rfl
    _ = c.fds.erase fd := by rw [← hnodup.erase_getElem k (hlen ▸ hk), hget k hk, heq]
    _ = c.fds.filter (· ≠ fd) := (filter_ne_eq_erase hnodup fd).symm

/-! The list over whole runs. -/

/-- What holds of the accepted descriptors in any run. -/
structure Fresh (s : Clients) : Prop where
  nodup : s.live.Nodup
  accepted : ∀ fd ∈ s.live, fd ∈ s.accepted

theorem removeFailed_sublist (live : List ℕ) (fd : ℕ) (n : IoRet) :
    (removeFailed live fd n).Sublist live := by
  unfold removeFailed
  split
  · exact List.filter_sublist
  · exact List.Sublist.refl live

theorem Fresh.remove {s : Clients} (h : Fresh s) (list : Clilist) (fd : ℕ) (n : IoRet) :
    Fresh { s with list := list, live := removeFailed s.live fd n } := by
  have hsub := removeFailed_sublist s.live fd n
  exact ⟨h.nodup.sublist hsub, fun i hi => h.accepted i (hsub.subset hi)⟩

theorem Fresh.accept {s : Clients} (h : Fresh s) (list : Clilist) {fd : ℕ} (hnew : fd ∉ s.accepted)
    (overrun : Bool) : Fresh ⟨list, s.accepted ++ [fd], s.live ++ [fd], overrun⟩ := by
  constructor
  · apply h.nodup.append (List.nodup_singleton fd)
    rw [List.disjoint_singleton]
    exact fun hmem => hnew (h.accepted fd hmem)
  · intro i hi
    rcases List.mem_append.mp hi with hi | hi
    · exact List.mem_append_left _ (h.accepted i hi)
    · exact List.mem_append_right _ hi

/-- Adding a client to an exact list keeps it exact when there is room. -/
theorem exact_accept {s : Clients} (h : Exact s) (fd : ℕ) (ip : String) {list : Clilist}
    (hadd : addClilist s.list ⟨fd, ip⟩ = some list) :
    Exact ⟨list, s.accepted ++ [fd], s.live ++ [fd], false⟩ := by
  unfold addClilist at hadd
  split at hadd
  · cases hadd
    have htail : (s.list.tailindex+1).toNat = s.list.tailindex.toNat+1 := by omega
    refine ⟨?_, ?_, rfl⟩
    · rw [List.length_append, List.length_singleton, h.tailindex]
      rfl
    · rw [Clilist.fds, htail, view_succ]
      dsimp only
      rw [Function.update_self, ← h.fds, Clilist.fds]
      congr 1
      apply view_congr
      intro i hi
      rw [Function.update_of_ne (by omega)]
  · cases hadd

/-- A report keeps an exact list exact when it is about a listed client. -/
theorem exact_report {s : Clients} (h : Exact s) (hf : Fresh s) (fd : ℕ) (n : IoRet) :
    Exact { s with list := (opIo s.list fd n).2, live := removeFailed s.live fd n } ↔
      (n.Fails → fd ∈ s.live) := by
  rw [opIo_clilist]
  unfold removeFailed
  by_cases hn : n.Fails
  · simp only [if_pos hn]
    constructor
    · intro he _
      have htail := he.tailindex
      have htail' : (delClilist s.list fd).tailindex = s.list.tailindex-1 := rfl
      by_contra hfd
      -- the list got shorter, and nothing was to be removed
      have hsame : s.live.filter (· ≠ fd) = s.live := by
        apply List.filter_eq_self.mpr
        intro i hi
        exact decide_eq_true fun heq => hfd (heq ▸ hi)
      dsimp only at htail
      rw [hsame, htail', h.tailindex] at htail
      omega
    · intro hfd
      have hmem := hfd hn
      have hnodup : s.list.fds.Nodup := h.fds ▸ hf.nodup
      have hpos := List.length_pos_of_mem hmem
      refine ⟨?_, ?_, h.inside⟩
      · dsimp only
        rw [filter_ne_eq_erase hf.nodup, List.length_erase_of_mem hmem]
        have htail : (delClilist s.list fd).tailindex = s.list.tailindex-1 := rfl
        rw [htail, h.tailindex]
        omega
      · have hfds := delClilist_fds hnodup (h.fds ▸ hmem)
        rw [h.fds] at hfds
        exact hfds
  · simp only [if_neg hn]
    exact iff_of_true ⟨h.tailindex, h.fds, h.inside⟩ fun hfail => (hn hfail).elim

/-- What a step can be: a client is accepted and there is room or not, or a call reports on one. -/
theorem nextClients_cases {s s' : Clients} {a : ClientAct} (h : nextClients s a = some s') :
    (∃ fd ip, a = .accept fd ip ∧ fd ∉ s.accepted ∧
      ((∃ list, addClilist s.list ⟨fd, ip⟩ = some list ∧
          s' = ⟨list, s.accepted ++ [fd], s.live ++ [fd], false⟩) ∨
        (addClilist s.list ⟨fd, ip⟩ = none ∧
          s' = ⟨s.list, s.accepted ++ [fd], s.live ++ [fd], true⟩))) ∨
    (∃ fd n, (a = .read fd n ∨ a = .write fd n) ∧
      s' = { s with list := (opIo s.list fd n).2, live := removeFailed s.live fd n }) := by
  unfold nextClients at h
  split at h
  · cases h
  cases a with
  | accept fd ip =>
    dsimp only at h
    split at h
    · cases h
    · next hnew =>
      split at h
      · next list hadd =>
        obtain rfl := Option.some.inj h
        exact .inl ⟨fd, ip, rfl, hnew, .inl ⟨list, hadd, rfl⟩⟩
      · next hadd =>
        obtain rfl := Option.some.inj h
        exact .inl ⟨fd, ip, rfl, hnew, .inr ⟨hadd, rfl⟩⟩
  | read fd n => exact .inr ⟨fd, n, .inl rfl, (Option.some.inj h).symm⟩
  | write fd n => exact .inr ⟨fd, n, .inr rfl, (Option.some.inj h).symm⟩

theorem Fresh.step {s s' : Clients} {a : ClientAct} (hf : Fresh s)
    (h : nextClients s a = some s') : Fresh s' := by
  obtain ⟨fd, ip, -, hnew, ⟨list, -, rfl⟩ | ⟨-, rfl⟩⟩ | ⟨fd, n, -, rfl⟩ := nextClients_cases h
  · exact hf.accept list hnew false
  · exact hf.accept s.list hnew true
  · exact hf.remove _ fd n

/-- An exact list has room for a client while fewer than the array's length are live. -/
theorem addClilist_isSome_iff {s : Clients} (h : Exact s) (cli : Clientmember) :
    (addClilist s.list cli).isSome ↔ s.live.length < maxConnect := by
  have htail := h.tailindex
  unfold addClilist
  split
  · exact iff_of_true rfl (by omega)
  · exact iff_of_false Bool.false_ne_true (by omega)

/-- A step keeps an exact list exact when it meets the condition, and only then. -/
theorem exact_step {s s' : Clients} {a : ClientAct} (hf : Fresh s) (he : Exact s)
    (h : nextClients s a = some s') : Exact s' ↔ RoomOrListed s a := by
  obtain ⟨fd, ip, rfl, -, ⟨list, hadd, rfl⟩ | ⟨hadd, rfl⟩⟩ | ⟨fd, n, rfl | rfl, rfl⟩ :=
    nextClients_cases h
  · apply iff_of_true (exact_accept he fd ip hadd)
    apply (addClilist_isSome_iff he ⟨fd, ip⟩).mp
    rw [hadd]
    rfl
  · apply iff_of_false fun hexact => Bool.noConfusion hexact.inside
    intro hroom
    have hsome := (addClilist_isSome_iff he ⟨fd, ip⟩).mpr hroom
    rw [hadd] at hsome
    cases hsome
  · exact exact_report he hf fd n
  · exact exact_report he hf fd n

/-- In every run the client list is exact in every state exactly when there is room for each
accepted client and each client reported failed is still listed. -/
theorem exact_iff_room_or_listed (tr : List (Clients × ClientAct)) (s : Clients)
    (h : Run nextClients .start tr s) :
    Throughout Exact tr s ↔ ∀ p ∈ tr, RoomOrListed p.1 p.2 :=
  h.throughout_iff RoomOrListed (fun _ _ _ hf hstep => hf.step hstep)
    (fun _ _ _ hf he hstep => exact_step hf he hstep)
    ⟨List.nodup_nil, fun _ hfd => nomatch hfd⟩ ⟨rfl, rfl, rfl⟩

/-- Clients 5 and 6 connect. -/
def twoClients : Clients :=
  ⟨⟨Function.update (Function.update Clilist.zero.clilist 0 ⟨5, "10.0.0.1"⟩) 1 ⟨6, "10.0.0.2"⟩, 2⟩,
    [5, 6], [5, 6], false⟩

theorem twoClients_run : Run nextClients .start
    [(.start, .accept 5 "10.0.0.1"),
      (⟨⟨Function.update Clilist.zero.clilist 0 ⟨5, "10.0.0.1"⟩, 1⟩, [5], [5], false⟩,
        .accept 6 "10.0.0.2")] twoClients :=
  .cons rfl (.single rfl)

/-- Client 5 has gone. -/
def oneClientLeft : Clients := (nextClients twoClients (.read 5 (.count 0))).get rfl

theorem exact_iff_room_or_listed_one_left : oneClientLeft.list.fds = [6] :=
  ((exact_iff_room_or_listed _ _ (twoClients_run.append (.single (Option.some_get _).symm))).mpr (by
    intro p hp
    rcases List.mem_append.mp hp with hp | hp
    · rcases List.mem_pair.mp hp with rfl | rfl
      · exact (by decide : 0 < maxConnect)
      · exact (by decide : 1 < maxConnect)
    · cases List.mem_singleton.mp hp
      exact fun _ => List.mem_cons_self)).2.fds

/-- A second report about client 5 takes client 6 off the list. -/
def noClientLeft : Clients := (nextClients oneClientLeft (.write 5 .error)).get rfl

theorem list_not_always_exact :
    ¬ ∀ (tr : List (Clients × ClientAct)) (s : Clients), Run nextClients .start tr s →
      Throughout Exact tr s := by
  intro hall
  have hleft : Run nextClients twoClients [(twoClients, .read 5 (.count 0)),
      (oneClientLeft, .write 5 .error)] noClientLeft :=
    .cons (Option.some_get _).symm (.single (Option.some_get _).symm)
  have hexact := (hall _ _ (twoClients_run.append hleft)).2.fds
  exact absurd hexact (by decide)

end LinuxPrograms.EpollTcp
