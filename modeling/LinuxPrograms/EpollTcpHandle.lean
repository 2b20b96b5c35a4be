import LinuxPrograms.EpollTcpClients
import LinuxPrograms.LibRecords

/-! One call of `handle` (test.c): it echoes what it read, and writes to every listed client. A
string of no bytes is echoed by a `write` of no bytes, which returns 0 as for a client that is gone;
and the loop over the list goes on at the next index while `op_write` takes clients out of it. -/
namespace LinuxPrograms.EpollTcp
open Lib

/-- The client list, what is registered with epoll, and the descriptors `op_write` was called on. -/
structure Serving where
  list : Clilist
  registered : List ℕ
  written : List ℕ

/-- `op_read` or `op_write` on `fd`, when the call returned `r`. -/
def Serving.transfer (s : Serving) (fd : ℕ) (r : IoRet) : Serving :=
  { s with
    list := (opIo s.list fd r).2
    registered := if r.Fails then s.registered.filter (· ≠ fd) else s.registered }

def Serving.write (s : Serving) (fd : ℕ) (r : IoRet) : Serving :=
  { s.transfer fd r with written := s.written ++ [fd] }

/-- The loop of `handle` from index `i` on, with at most `n` rounds to go; `w i` is what the `write`
of round `i` returns. Each round looks at `tailindex` again, which never grows. -/
def broadcast (w : ℕ → IoRet) : ℕ → Serving → ℕ → Serving
  | 0, s, _ => s
  | n+1, s, i =>
    if (i : ℤ) < s.list.tailindex then
      broadcast w n (s.write (s.list.clilist i).fd (w i)) (i+1)
    else s

/-- What `read` returns, with the bytes it puts in the buffer. -/
inductive ReadRet
  | data (bytes : List UInt8)
  | eagain
  | error
deriving DecidableEq, Repr

def ReadRet.ret : ReadRet → IoRet
  | .data bytes => .count bytes.length
  | .eagain => .eagain
  | .error => .error

def lineSize : ℕ := 255

/-- `line` after the read. -/
def ReadRet.line : ReadRet → List UInt8
  | .data bytes => copyTo (List.replicate lineSize 0) 0 bytes
  | _ => List.replicate lineSize 0

def strlen (memory : List UInt8) : ℕ := (memory.takeWhile (· ≠ 0)).length

/-- `strlen("helloworld")` -/
def helloworldLength : ℕ := 10

/-- `handle`. Its argument points to `fd` when `op_read` looks at it, and to `fd'` when `op_write`
does. The `k`-th call of `write` with `count` bytes returns `w k count`; `beyond` is what stands in
memory after `line`, which need not hold a NUL. -/
def handle (s : Serving) (fd fd' : ℕ) (r : ReadRet) (beyond : List UInt8) (w : ℕ → ℕ → IoRet) :
    Serving :=
  let s₁ := s.transfer fd r.ret
  if (opRead s.list fd r.ret).1 < -1 then s₁
  else
    let echo := w 0 (strlen (r.line ++ beyond))
    let s₂ := s₁.write fd' echo
    if (opWrite s₁.list fd' echo).1 < -1 then s₂
    else broadcast (fun i => w (i+1) helloworldLength) s₂.list.tailindex.toNat s₂ 0

/-- `read` returned some bytes, no more than fit in the buffer, or failed with `EAGAIN`. -/
def ReadRet.Ok : ReadRet → Prop
  | .data bytes => 0 < bytes.length ∧ bytes.length ≤ lineSize
  | .eagain => True
  | .error => False

/-- No `write` fails but with `EAGAIN`; one of no bytes returns 0, and one of some takes some. -/
structure NoErrors (w : ℕ → ℕ → IoRet) : Prop where
  empty : ∀ k, w k 0 = .count 0
  some : ∀ k count, 0 < count → w k count = .eagain ∨ ∃ n, 0 < n ∧ n ≤ count ∧ w k count = .count n

/-- No client is taken out of the list, and none is unregistered. -/
def KeepsClients (s t : Serving) : Prop := t.list.fds = s.list.fds ∧ t.registered = s.registered

/-- Some bytes were read, and the first is not a NUL. -/
def ReadRet.Text : ReadRet → Prop
  | .data (b :: _) => b ≠ 0
  | _ => False

/-! One call of `op_read` or `op_write`. -/

theorem transfer_of_not_fails {s : Serving} (fd : ℕ) {r : IoRet} (hr : ¬ r.Fails) :
    s.transfer fd r = s := by
  rw [Serving.transfer, opIo_clilist, if_neg hr, if_neg hr]

theorem write_of_not_fails {s : Serving} (fd : ℕ) {r : IoRet} (hr : ¬ r.Fails) :
    s.write fd r = { s with written := s.written ++ [fd] } := by
  rw [Serving.write, transfer_of_not_fails fd hr]

theorem opIo_lt_iff (c : Clilist) (fd : ℕ) (r : IoRet) : (opIo c fd r).1 < -1 ↔ r.Fails := by
  cases r with
  | count n =>
    cases n with
    | zero => exact iff_of_true (by decide : (-2 : ℤ) < -1) (Or.inl rfl)
    | succ n =>
      refine iff_of_false (fun hlt => ?_) (by simp [IoRet.Fails])
      have hret : (opIo c fd (.count (n+1))).1 = ((n+1 : ℕ) : ℤ) := rfl
      omega
  | eagain => exact iff_of_false (by decide : ¬ (-1 : ℤ) < -1) (by simp [IoRet.Fails])
  | error => exact iff_of_true (by decide : (-3 : ℤ) < -1) (Or.inr rfl)

/-- Taking out the client at index `k`. -/
theorem delClilist_at {c : Clilist} (hnodup : c.fds.Nodup) {k : ℕ} (hk : k < c.fds.length) :
    (delClilist c c.fds[k]).fds = c.fds.eraseIdx k := by
  rw [delClilist_fds hnodup (List.getElem_mem hk), filter_ne_eq_erase hnodup,
    hnodup.erase_getElem k hk]

theorem fds_length (c : Clilist) : c.fds.length = c.tailindex.toNat := view_length _ _

theorem fds_getElem (c : Clilist) {k : ℕ} (hk : k < c.fds.length) :
    c.fds[k] = (c.clilist k).fd :=
  view_getElem _ _ _ _

/-! When no `write` fails. -/

theorem NoErrors.not_fails {w : ℕ → ℕ → IoRet} (hw : NoErrors w) (k : ℕ) {count : ℕ}
    (hcount : 0 < count) : ¬ (w k count).Fails := by
  rcases hw.some k count hcount with hagain | ⟨n, hn, -, hn'⟩
  · rw [hagain]
    decide
  · rw [hn']
    rintro (hzero | herror)
    · rw [IoRet.count.inj hzero] at hn
      exact absurd hn (lt_irrefl 0)
    · cases herror

theorem broadcast_of_not_fails {w : ℕ → IoRet} (hw : ∀ k, ¬ (w k).Fails) (n : ℕ) (s : Serving)
    (i : ℕ) :
    (broadcast w n s i).list = s.list ∧ (broadcast w n s i).registered = s.registered := by
  induction n generalizing s i with
  | zero => exact ⟨rfl, rfl⟩
  | succ n ih =>
    rw [broadcast]
    split
    · obtain ⟨hlist, hregistered⟩ := ih (s.write (s.list.clilist i).fd (w i)) (i+1)
      rw [hlist, hregistered, write_of_not_fails _ (hw i)]
      exact ⟨rfl, rfl⟩
    · exact ⟨rfl, rfl⟩

theorem strlen_line {r : ReadRet} (hr : r.Ok) (beyond : List UInt8) :
    0 < strlen (r.line ++ beyond) ↔ r.Text := by
  have hempty : strlen (List.replicate lineSize 0 ++ beyond) = 0 := by
    rw [show lineSize = 254+1 from rfl, List.replicate_succ]
    rfl
  cases r with
  | data bytes =>
    cases bytes with
    | nil => exact absurd hr.1 (lt_irrefl 0)
    | cons b rest =>
      have hline : (ReadRet.data (b :: rest)).line ++ beyond =
          b :: (rest ++ (List.replicate lineSize 0).drop (rest.length+1) ++ beyond) := by
        simp [ReadRet.line, copyTo]
      rw [hline, strlen, List.takeWhile_cons]
      by_cases hb : b = 0
      · rw [hb]
        exact iff_of_false (lt_irrefl 0) fun htext => htext rfl
      · rw [if_pos (decide_eq_true hb)]
        exact iff_of_true (Nat.succ_pos _) hb
  | eagain => exact iff_of_false (hempty ▸ lt_irrefl 0) id
  | error => exact hr.elim

/-- Delisting a client changes the list, or leaves an empty one alone. -/
theorem delClilist_fds_eq {c : Clilist} (fd : ℕ) :
    (delClilist c fd).fds = c.fds ↔ c.tailindex ≤ 0 := by
  constructor
  · intro hsame
    have hlen := congrArg List.length hsame
    have htail : (delClilist c fd).tailindex = c.tailindex-1 := rfl
    rw [fds_length, fds_length, htail] at hlen
    omega
  · intro hempty
    have hnil (c : Clilist) (h : c.tailindex ≤ 0) : c.fds = [] :=
      List.eq_nil_of_length_eq_zero (by rw [fds_length]; omega)
    rw [hnil c hempty]
    exact hnil _ (by show c.tailindex-1 ≤ 0; omega)

theorem filter_ne_eq_self {l : List ℕ} {x : ℕ} : l.filter (· ≠ x) = l ↔ x ∉ l := by
  rw [List.filter_eq_self]
  constructor
  · intro hall hx
    exact of_decide_eq_true (hall x hx) rfl
  · intro hx y hy
    exact decide_eq_true fun heq => hx (heq ▸ hy)

/-- Without errors `handle` keeps its clients exactly when it read a string that is not empty, or
there is nobody to delist and nothing to unregister. -/
theorem handle_keepsClients_iff (s : Serving) (fd fd' : ℕ) {r : ReadRet} (hr : r.Ok)
    (beyond : List UInt8) {w : ℕ → ℕ → IoRet} (hw : NoErrors w) :
    KeepsClients s (handle s fd fd' r beyond w) ↔
      r.Text ∨ (s.list.tailindex ≤ 0 ∧ fd' ∉ s.registered) := by
  have hread : ¬ r.ret.Fails := by
    cases r with
    | data bytes =>
      rintro (hzero | herror)
      · have hlen : bytes.length = 0 := IoRet.count.inj hzero
        exact absurd hr.1 (by rw [hlen]; exact lt_irrefl 0)
      · cases herror
    | eagain => decide
    | error => exact hr.elim
  unfold handle
  simp only [opRead, opWrite, opIo_lt_iff, if_neg hread, transfer_of_not_fails fd hread]
  by_cases htext : r.Text
  · -- the echo goes through, and so does the broadcast
    have hecho := hw.not_fails 0 ((strlen_line hr beyond).mpr htext)
    rw [if_neg hecho]
    obtain ⟨hlist, hregistered⟩ := broadcast_of_not_fails
      (fun k => hw.not_fails (k+1) (by decide : 0 < helloworldLength)) _
      (s.write fd' (w 0 (strlen (r.line ++ beyond)))) 0
    refine iff_of_true ?_ (Or.inl htext)
    rw [KeepsClients, hlist, hregistered, write_of_not_fails fd' hecho]
    exact ⟨rfl, rfl⟩
  · have hzero : strlen (r.line ++ beyond) = 0 :=
      Nat.eq_zero_of_not_pos fun hpos => htext ((strlen_line hr beyond).mp hpos)
    have hfails : (w 0 0).Fails := Or.inl (hw.empty 0)
    have hdelisted : (s.write fd' (w 0 0)).list = delClilist s.list fd' := by
      show (opIo s.list fd' (w 0 0)).2 = _
      rw [opIo_clilist, if_pos hfails]
    have hunregistered : (s.write fd' (w 0 0)).registered = s.registered.filter (· ≠ fd') :=
      if_pos hfails
    rw [hzero, if_pos hfails, KeepsClients, hdelisted, hunregistered, delClilist_fds_eq,
      filter_ne_eq_self]
    exact ⟨Or.inr, fun h => h.resolve_left htext⟩

/-- Every `write` takes all it is given. -/
def takesAll : ℕ → ℕ → IoRet := fun _ count => .count count

theorem takesAll_noErrors : NoErrors takesAll :=
  ⟨fun _ => rfl, fun _ count hcount => Or.inr ⟨count, hcount, Nat.le_refl count, rfl⟩⟩

/-- Clients 5 and 6 are listed and registered. -/
def twoServed : Serving := ⟨twoClients.list, [3, 5, 6], []⟩

theorem handle_keepsClients_hi :
    KeepsClients twoServed (handle twoServed 5 5 (.data [104, 105]) [] takesAll) :=
  have hok : (ReadRet.data [104, 105]).Ok := (by decide : 0 < 2 ∧ 2 ≤ lineSize)
  have htext : (ReadRet.data [104, 105]).Text := (by decide : (104 : UInt8) ≠ 0)
  (handle_keepsClients_iff twoServed 5 5 hok [] takesAll_noErrors).mpr (Or.inl htext)

/-- A spurious event: the read fails with `EAGAIN`, and the live client 5 is delisted. -/
theorem spurious_event_delists :
    ¬ ∀ (s : Serving) (fd : ℕ) (r : ReadRet) (beyond : List UInt8) (w : ℕ → ℕ → IoRet), r.Ok →
      NoErrors w → KeepsClients s (handle s fd fd r beyond w) := by
  intro hall
  have hkeeps := hall twoServed 5 .eagain [] takesAll trivial takesAll_noErrors
  exact absurd hkeeps.1 (by decide +kernel)

end LinuxPrograms.EpollTcp
