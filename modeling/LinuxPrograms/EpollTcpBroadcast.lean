import LinuxPrograms.EpollTcpHandle

/-! The loop of `handle` over the client list. A client that fails is taken out of the list while
the loop stands on it, the next one moves to its index, and the loop goes on one index further. -/
namespace LinuxPrograms.EpollTcp
open Lib

/-- The loop, from the start of the list. -/
def broadcastAll (w : ℕ → IoRet) (list : Clilist) (registered : List ℕ) : Serving :=
  broadcast w list.tailindex.toNat ⟨list, registered, []⟩ 0

/-- Each listed client is written to exactly once. -/
def ReachesAll (w : ℕ → IoRet) (list : Clilist) (registered : List ℕ) : Prop :=
  ∀ fd ∈ list.fds, (broadcastAll w list registered).written.count fd = 1

/-! What is left of the list when the loop has moved on. -/

theorem drop_eraseIdx_succ {l : List ℕ} {i : ℕ} (h : i < l.length) :
    (l.eraseIdx i).drop (i+1) = l.drop (i+2) := by
  have htake : (l.take i).length = i := List.length_take_of_le (Nat.le_of_lt h)
  rw [List.eraseIdx_eq_take_drop_succ, List.drop_append, htake, List.drop_eq_nil_of_le (by omega),
    List.nil_append, List.drop_drop]
  congr 1
  omega

theorem fds_drop (c : Clilist) {i : ℕ} (h : (i : ℤ) < c.tailindex) :
    c.fds.drop i = (c.clilist i).fd :: c.fds.drop (i+1) := by
  have hi : i < c.fds.length := by
    rw [fds_length]
    omega
  rw [List.drop_eq_getElem_cons hi, fds_getElem c hi]

/-- After a failure the client that was next is behind the loop. -/
theorem write_fds {s : Serving} (hnodup : s.list.fds.Nodup) {i : ℕ}
    (hi : (i : ℤ) < s.list.tailindex) (r : IoRet) :
    (s.write (s.list.clilist i).fd r).list.fds.Nodup ∧
      (s.write (s.list.clilist i).fd r).list.fds.drop (i+1) =
        if r.Fails then s.list.fds.drop (i+2) else s.list.fds.drop (i+1) := by
  have hlist : (s.write (s.list.clilist i).fd r).list =
      if r.Fails then delClilist s.list (s.list.clilist i).fd else s.list :=
    opIo_clilist _ _ _
  have hlen : i < s.list.fds.length := by
    rw [fds_length]
    omega
  rw [hlist]
  split
  · rw [← fds_getElem s.list hlen, delClilist_at hnodup hlen]
    exact ⟨hnodup.eraseIdx i, drop_eraseIdx_succ hlen⟩
  · exact ⟨hnodup, rfl⟩

theorem write_count (s : Serving) (fd : ℕ) (r : IoRet) (x : ℕ) :
    (s.write fd r).written.count x = s.written.count x+if x = fd then 1 else 0 := by
  have hwritten : (s.write fd r).written = s.written ++ [fd] := rfl
  rw [hwritten, List.count_append, List.count_singleton]
  by_cases hx : x = fd
  · simp [hx]
  · simp [hx, Ne.symm hx]

/-! Whom the loop writes to. -/

/-- A client the loop has passed, or that is not listed, is not written to any more. -/
theorem broadcast_count_of_not_mem {w : ℕ → IoRet} {n : ℕ} {s : Serving} {i x : ℕ}
    (hnodup : s.list.fds.Nodup) (hx : x ∉ s.list.fds.drop i) :
    (broadcast w n s i).written.count x = s.written.count x := by
  induction n generalizing s i with
  | zero => rfl
  | succ n ih =>
    rw [broadcast]
    split
    · next hi =>
      rw [fds_drop s.list hi, List.mem_cons, not_or] at hx
      obtain ⟨hnodup', hdrop⟩ := write_fds hnodup hi (w i)
      rw [ih hnodup', write_count, if_neg hx.1, Nat.add_zero]
      rw [hdrop]
      split
      · exact fun hmem => hx.2 ((List.drop_sublist_drop_left _ (Nat.le_succ (i+1))).subset hmem)
      · exact hx.2
    · rfl

/-- A write that fails makes the loop skip the next client, so nobody may be left. -/
theorem broadcast_count_failed {w : ℕ → IoRet} {n : ℕ} {s : Serving} {i : ℕ}
    (hnodup : s.list.fds.Nodup) (hi : (i : ℤ) < s.list.tailindex)
    (hn : n+1 = s.list.fds.length-i) (hfails : (w i).Fails) :
    (∀ x ∈ s.list.fds.drop i,
      (broadcast w (n+1) s i).written.count x = s.written.count x+1) ↔
      s.list.fds.length ≤ i+1 := by
  have hcons := fds_drop s.list hi
  have hrest : ((s.list.clilist i).fd :: s.list.fds.drop (i+1)).Nodup :=
    hcons ▸ hnodup.sublist (List.drop_sublist i _)
  obtain ⟨hnotmem, hnoduprest⟩ := List.nodup_cons.mp hrest
  obtain ⟨hnodup', hdrop⟩ := write_fds hnodup hi (w i)
  rw [if_pos hfails] at hdrop
  rw [broadcast, if_pos hi, hcons]
  rcases Nat.lt_or_ge (i+1) s.list.fds.length with hnext | hlast
  · -- the next client is not written to
    refine iff_of_false (fun hall => ?_) (Nat.not_le_of_lt hnext)
    rw [List.drop_eq_getElem_cons hnext] at hnotmem hnoduprest hall
    have hone := hall _ (List.mem_cons_of_mem _ List.mem_cons_self)
    have hbehind : s.list.fds[i+1] ∉
        (s.write (s.list.clilist i).fd (w i)).list.fds.drop (i+1) := by
      rw [hdrop]
      exact (List.nodup_cons.mp hnoduprest).1
    have hne : s.list.fds[i+1] ≠ (s.list.clilist i).fd := fun heq =>
      hnotmem (List.mem_cons.mpr (Or.inl heq.symm))
    rw [broadcast_count_of_not_mem hnodup' hbehind, write_count, if_neg hne] at hone
    omega
  · have hzero : n = 0 := by omega
    have hnil : s.list.fds.drop (i+1) = [] := List.drop_eq_nil_of_le hlast
    rw [hzero, hnil]
    refine iff_of_true (fun x hx => ?_) hlast
    rw [List.mem_singleton.mp hx, broadcast, write_count, if_pos rfl]

/-- The loop writes to everybody still to come exactly when no write but the last fails: after a
failure the next client is skipped. -/
theorem broadcast_count_iff {w : ℕ → IoRet} {n : ℕ} {s : Serving} {i : ℕ}
    (hnodup : s.list.fds.Nodup) (hn : n = s.list.fds.length-i) :
    (∀ x ∈ s.list.fds.drop i, (broadcast w n s i).written.count x = s.written.count x+1) ↔
      ∀ j, i ≤ j → j+1 < s.list.fds.length → ¬ (w j).Fails := by
  induction n generalizing s i with
  | zero =>
    have hnil : s.list.fds.drop i = [] := List.drop_eq_nil_of_le (by omega)
    rw [hnil]
    exact iff_of_true (by simp) fun j hij hj => by omega
  | succ n ih =>
    have hi : (i : ℤ) < s.list.tailindex := by
      rw [fds_length] at hn
      omega
    by_cases hfails : (w i).Fails
    · rw [broadcast_count_failed hnodup hi hn hfails]
      constructor
      · intro hlast j hij hj
        omega
      · intro hnone
        by_contra hnext
        exact hnone i (Nat.le_refl i) (Nat.lt_of_not_le hnext) hfails
    · have hcons := fds_drop s.list hi
      have hrest : ((s.list.clilist i).fd :: s.list.fds.drop (i+1)).Nodup :=
        hcons ▸ hnodup.sublist (List.drop_sublist i _)
      have hnotmem := (List.nodup_cons.mp hrest).1
      obtain ⟨hnodup', -⟩ := write_fds hnodup hi (w i)
      have hsame : (s.write (s.list.clilist i).fd (w i)).list = s.list := by
        rw [write_of_not_fails _ hfails]
      have ih' := ih (s := s.write (s.list.clilist i).fd (w i)) (i := i+1) hnodup'
        (by rw [hsame]; omega)
      rw [hsame] at ih'
      rw [broadcast, if_pos hi, hcons, List.forall_mem_cons]
      have hself : (broadcast w n (s.write (s.list.clilist i).fd (w i)) (i+1)).written.count
          (s.list.clilist i).fd = s.written.count (s.list.clilist i).fd+1 := by
        have hpassed : (s.list.clilist i).fd ∉
            (s.write (s.list.clilist i).fd (w i)).list.fds.drop (i+1) := by
          rw [hsame]
          exact hnotmem
        rw [broadcast_count_of_not_mem hnodup' hpassed, write_count, if_pos rfl]
      have hothers : ∀ x ∈ s.list.fds.drop (i+1),
          (s.write (s.list.clilist i).fd (w i)).written.count x = s.written.count x := by
        intro x hx
        have hne : x ≠ (s.list.clilist i).fd := fun heq => hnotmem (heq ▸ hx)
        rw [write_count, if_neg hne, Nat.add_zero]
      constructor
      · rintro ⟨-, hall⟩ j hij hj
        rcases Nat.eq_or_lt_of_le hij with rfl | hlt
        · exact hfails
        · exact ih'.mp (fun x hx => by rw [hothers x hx]; exact hall x hx) j hlt hj
      · intro hnone
        refine ⟨hself, fun x hx => ?_⟩
        rw [← hothers x hx]
        exact ih'.mpr (fun j hij hj => hnone j (Nat.le_of_succ_le hij) hj) x hx

/-- The loop writes to every client exactly once exactly when no client but the last one fails. -/
theorem reachesAll_iff_only_last_fails {w : ℕ → IoRet} {list : Clilist} (registered : List ℕ)
    (hnodup : list.fds.Nodup) :
    ReachesAll w list registered ↔ ∀ i, i+1 < list.fds.length → ¬ (w i).Fails := by
  have hcount := broadcast_count_iff (w := w) (s := ⟨list, registered, []⟩) (i := 0) hnodup rfl
  simp only [List.drop_zero, List.count_nil, Nat.zero_add, Nat.zero_le, true_implies,
    Nat.sub_zero, fds_length] at hcount
  rw [fds_length]
  exact hcount

/-- The last of two clients has gone. -/
def lastFails : ℕ → IoRet := fun i => if i = 1 then .error else .count 10

theorem reachesAll_last_fails : ReachesAll lastFails twoClients.list [3, 5, 6] :=
  (reachesAll_iff_only_last_fails [3, 5, 6] (by decide)).mpr fun i hi => by
    have hlen : twoClients.list.fds.length = 2 := by decide
    obtain rfl : i = 0 := by omega
    decide

/-- Client 5 has gone, and nothing is written to client 6. -/
theorem next_client_skipped :
    ¬ ∀ (w : ℕ → IoRet) (list : Clilist) (registered : List ℕ), list.fds.Nodup →
      ReachesAll w list registered := by
  intro hall
  have hreaches := hall (fun _ => .error) twoClients.list [3, 5, 6] (by decide) 6 (by decide)
  exact absurd hreaches (by decide +kernel)

end LinuxPrograms.EpollTcp
