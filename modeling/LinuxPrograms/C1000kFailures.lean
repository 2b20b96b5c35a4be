import LinuxPrograms.C1000kFrame

/-! What becomes of a client whose `read` or `write` fails. The callbacks take every -1 for an empty
socket and never look at `errno`, so a failed connection is closed only when something else in the
same event closes it. -/
namespace LinuxPrograms.C1000k
open Lib

/-- What `read` or `write` on a client returned: a number of bytes, or -1 with `errno`. -/
inductive IoRet
  | count (len : ℕ)
  | error (errno : Errno)
deriving DecidableEq, Repr

def IoRet.len : IoRet → ℤ
  | .count len => len
  | .error _ => -1

/-- An error that does not pass. -/
def IoRet.Fails : IoRet → Prop
  | .count _ => False
  | .error errno => errno ≠ .EAGAIN ∧ errno ≠ .EINTR

/-- What the system calls made for one event returned. After the last of `reads` the answer is
`EAGAIN`. -/
structure EventIo where
  recvs : List RecvRet
  reads : List IoRet
  write : IoRet

def EventIo.io (e : EventIo) : Io := ⟨e.recvs, e.reads.map IoRet.len, e.write.len⟩

/-- A test of `process_one_event` fails for a reported event only when the item is marked. -/
theorem marked_of_not_called {p : FDITEM} {reported : Bool}
    (h : ¬ (p.mActiveclose = false ∧ reported = true)) (hr : reported = true) :
    p.mActiveclose = true := by
  by_contra hmark
  exact h ⟨Bool.eq_false_of_not_eq_true hmark, hr⟩

/-- The reads `client_readfun` makes: the first that brings nothing is the last. -/
def readsMade : List IoRet → List IoRet
  | [] => []
  | r :: reads => if 0 < r.len then r :: readsMade reads else [r]

/-- A failed read is the last one, so none has returned 0. -/
theorem zero_not_mem_readsMade {reads : List IoRet} {r : IoRet} (hr : r ∈ readsMade reads)
    (hfails : r.Fails) : .count 0 ∉ readsMade reads := by
  induction reads with
  | nil => cases hr
  | cons r₀ reads ih =>
    rw [readsMade] at hr ⊢
    split at hr
    · rename_i hpos
      rw [if_pos hpos]
      rcases List.mem_cons.mp hr with rfl | hr
      · cases r with
        | count len => exact hfails.elim
        | error errno => exact absurd hpos (by simp [IoRet.len])
      · intro hzero
        rcases List.mem_cons.mp hzero with rfl | hzero
        · exact absurd hpos (by decide)
        · exact ih hr hzero
    · rename_i hpos
      rw [if_neg hpos, List.mem_singleton]
      rintro rfl
      rw [List.mem_singleton.mp hr] at hfails
      exact hfails

section Round

variable [LinearOrder VoidPtr]

/-- The loop of `process_event` over the reported events. -/
def processEvents (w : ℕ) : List (Event × EventIo) → World → Except Stop World
  | [], s => .ok s
  | (ev, e) :: evs, s => processOneEvent w e.io ev s >>= processEvents w evs

/-- `process_event`: the reported events, then the timers that are due. The result has the addresses
`get_timer` returned. -/
def processEvent (w : ℕ) (evs : List (Event × EventIo)) (timeStamp : TimeValue)
    (writes : ℕ → IoRet) (fuel : ℕ) (s : World) : Except Stop (Option (List VoidPtr × World)) :=
  processEvents w evs s >>= timedPhase w timeStamp (fun k => (writes k).len) fuel

/-- A `read` or the `write` made for the event fails. -/
def EventFails (w : ℕ) (ev : Event) (e : EventIo) (s : World) : Prop :=
  ((s.gFDITEM ev.fd).mActiveclose = false ∧ ev.events.epollin = true ∧
    ∃ r ∈ readsMade e.reads, r.Fails) ∨
  ∃ s₁, callStage w e.io (·.mReadfun) ev.events.epollin ev.fd s = .ok s₁ ∧
    (s₁.gFDITEM ev.fd).mActiveclose = false ∧ ev.events.epollout = true ∧ e.write.Fails

/-- A `read` or `write` on `fd` fails in the loop over the events. -/
def BatchFails (w fd : ℕ) : List (Event × EventIo) → World → Prop
  | [], _ => False
  | (ev, e) :: evs, s => (ev.fd = fd ∧ EventFails w ev e s) ∨
      ∃ s₁, processOneEvent w e.io ev s = .ok s₁ ∧ BatchFails w fd evs s₁

/-- A client of worker `w`. -/
structure Connected (w fd : ℕ) (s : World) : Prop where
  numbered : s.Numbered
  opened : s.opened fd = true
  registered : fd ∈ s.interest w
  client : (s.gFDITEM fd).IsClient
  timers : ∃ armed, (s.timer w).Represents armed

/-- The client has been closed by `client_closefun`, and worker `w` has no timer of it. -/
structure Closed (w fd : ℕ) (s : World) : Prop where
  closed : s.opened fd = false
  unregistered : ∀ w', fd ∉ s.interest w'
  item : s.gFDITEM fd = FDITEM.new fd
  disarmed : ∀ t, (VoidPtr.item fd, t) ∉ (s.timer w).timerArgTime.entries ∧
    (t, VoidPtr.item fd) ∉ (s.timer w).timerTimeArg.entries

theorem WorldOk.connected {cfg : WorkerConfig} {s : World} (h : WorldOk cfg s) {w fd : ℕ}
    (hfd : fd ∈ s.clients cfg w) : Connected w fd s := by
  have hmem := (WorldOk.mem_clients.mp hfd).1
  obtain ⟨armed, hT, -⟩ := h.armed w
  exact ⟨h.fd_eq, h.opened w fd hmem, hmem, h.client w fd hfd, armed, hT⟩

/-- The state after the client has been closed, with what the rest of the round keeps. -/
structure Gone (w fd : ℕ) (s : World) : Prop where
  numbered : s.Numbered
  closed : s.opened fd = false
  unregistered : ∀ w', fd ∉ s.interest w'
  item : s.gFDITEM fd = FDITEM.new fd
  timers : ∃ armed, (s.timer w).Represents armed ∧ ∀ t, (t, VoidPtr.item fd) ∉ armed

section Stages
variable {w fd : ℕ} {ev : Event} {e : EventIo} {s s' : World}

theorem Gone.isClosed (h : Gone w fd s) : Closed w fd s := by
  obtain ⟨armed, hT, hnone⟩ := h.timers
  refine ⟨h.closed, h.unregistered, h.item, fun t => ⟨fun hmem => ?_, fun hmem => ?_⟩⟩
  · exact hnone t ((hT.mem_argTime _ _).mp hmem)
  · exact hnone t (hT.timeArg.perm.subset hmem)

theorem Connected.not_closed (h : Connected w fd s) : ¬ Closed w fd s := fun hclosed => by
  have hopened := h.opened
  rw [hclosed.closed] at hopened
  cases hopened

theorem Connected.leaves (h : Connected w fd s) (hl : Leaves w fd s s') : Connected w fd s' := by
  obtain ⟨armed, hT⟩ := h.timers
  obtain ⟨armed', hT', -⟩ := hl.timers armed hT
  exact ⟨hl.numbered h.numbered, hl.opened.trans h.opened, (hl.interest w).mpr h.registered,
    hl.item ▸ h.client, armed', hT'⟩

theorem Gone.leaves (h : Gone w fd s) (hl : Leaves w fd s s') : Gone w fd s' := by
  obtain ⟨armed, hT, hnone⟩ := h.timers
  obtain ⟨armed', hT', hsub⟩ := hl.timers armed hT
  exact ⟨hl.numbered h.numbered, hl.opened.trans h.closed,
    fun w' hmem => h.unregistered w' ((hl.interest w').mp hmem), hl.item.trans h.item,
    armed', hT', fun t ht => hnone t (hsub t ht)⟩

theorem Connected.setItem (h : Connected w fd s) {p : FDITEM}
    (hp : p.funs = (s.gFDITEM fd).funs) : Connected w fd (s.setItem fd p) := by
  have hclient : p.IsClient := h.client.congr hp
  simp only [FDITEM.funs, Prod.mk.injEq] at hp
  refine ⟨h.numbered.setItem hp.2.2.2.2, h.opened, h.registered, ?_, h.timers⟩
  simp only [World.setItem, Function.update_self]
  exact hclient

theorem Connected.setTimer (h : Connected w fd s) {T : TIMER VoidPtr}
    {armed : List (TimeValue × VoidPtr)} (hT : T.Represents armed) :
    Connected w fd (s.setTimer w T) := by
  refine ⟨h.numbered, h.opened, h.registered, h.client, armed, ?_⟩
  simp only [World.setTimer, Function.update_self]
  exact hT

/-- Marking the item for closing. -/
theorem Connected.setActiveclose (h : Connected w fd s) :
    Connected w fd (s.setActiveclose fd) ∧
      ((s.setActiveclose fd).gFDITEM fd).mActiveclose = true := by
  refine ⟨h.setItem rfl, ?_⟩
  simp only [World.setActiveclose, World.setItem, Function.update_self]

/-- Of all the answers only a read of no bytes counts. -/
theorem clientReadfun_made (fd : ℕ) (reads : List IoRet) (s : World) :
    clientReadfun fd (reads.map IoRet.len) s =
      if .count 0 ∈ readsMade reads then (-1, s.setActiveclose fd) else (1, s) := by
  induction reads with
  | nil => rfl
  | cons r reads ih =>
    rw [List.map_cons, clientReadfun, readsMade]
    cases r with
    | error errno => simp [IoRet.len]
    | count len =>
      cases len with
      | zero => simp [IoRet.len]
      | succ len =>
        have hpos : 0 < (IoRet.count (len+1)).len := Int.natCast_pos.mpr (Nat.succ_pos len)
        have hmem : IoRet.count 0 ∈ IoRet.count (len+1) :: readsMade reads ↔
            .count 0 ∈ readsMade reads := by simp
        rw [if_neg (by omega), if_neg (by omega), if_pos hpos, ih]
        exact if_congr hmem.symm rfl rfl

theorem Connected.readStage (h : Connected w fd s) {e : EventIo} {reported : Bool}
    (hread : callStage w e.io (·.mReadfun) reported fd s = .ok s') :
    Connected w fd s' ∧ ((s'.gFDITEM fd).mActiveclose = true ↔
      (s.gFDITEM fd).mActiveclose = true ∨ (reported = true ∧ .count 0 ∈ readsMade e.reads)) := by
  unfold callStage at hread
  split at hread
  · rename_i hcall
    simp only [h.client.readfun, callFromWorker, EventIo.io, clientReadfun_made] at hread
    have hmarked := h.setActiveclose
    by_cases hzero : .count 0 ∈ readsMade e.reads
    · simp only [if_pos hzero] at hread
      cases hread
      rw [if_pos (by decide)]
      exact ⟨hmarked.1.setActiveclose.1, iff_of_true hmarked.1.setActiveclose.2
        (.inr ⟨hcall.2, hzero⟩)⟩
    · simp only [if_neg hzero] at hread
      cases hread
      rw [if_neg (by decide)]
      refine ⟨h, iff_of_false (by simp [hcall.1]) ?_⟩
      rintro (hmark | ⟨-, hmem⟩)
      · rw [hcall.1] at hmark
        cases hmark
      · exact hzero hmem
  · rename_i hcall
    cases hread
    exact ⟨h, (or_iff_left_of_imp fun hr => marked_of_not_called hcall hr.1).symm⟩

theorem Connected.countSended (h : Connected w fd s) (r : IoRet) :
    Connected w fd (countSended fd r.len s) ∧
      (((C1000k.countSended fd r.len s).gFDITEM fd).mActiveclose = true ↔
        (s.gFDITEM fd).mActiveclose = true ∨ r = .count 0) := by
  unfold C1000k.countSended
  dsimp only
  have hzero : r.len = 0 ↔ r = .count 0 := by cases r <;> simp [IoRet.len]
  split
  · rename_i hlen
    exact ⟨h.setActiveclose.1, iff_of_true h.setActiveclose.2 (.inr (hzero.mp hlen))⟩
  · rename_i hlen
    have hsame : (s.gFDITEM fd).mActiveclose = true ↔
        (s.gFDITEM fd).mActiveclose = true ∨ r = .count 0 :=
      (or_iff_left fun hr => hlen (hzero.mpr hr)).symm
    split
    · refine ⟨h.setItem rfl, ?_⟩
      simp only [World.setItem, Function.update_self]
      exact hsame
    · exact ⟨h, hsame⟩

theorem Connected.writeStage (h : Connected w fd s) {e : EventIo} {reported : Bool}
    (hwrite : callStage w e.io (·.mWritefun) reported fd s = .ok s') :
    Connected w fd s' ∧ ((s'.gFDITEM fd).mActiveclose = true ↔
      (s.gFDITEM fd).mActiveclose = true ∨ (reported = true ∧ e.write = .count 0)) := by
  unfold callStage at hwrite
  split at hwrite
  · rename_i hcall
    simp only [h.client.writefun, callFromWorker, clientWritefun] at hwrite
    cases hwrite
    rw [if_neg (by decide)]
    refine ⟨(h.countSended e.write).1, (h.countSended e.write).2.trans ?_⟩
    simp only [hcall.2, true_and]
  · rename_i hcall
    cases hwrite
    exact ⟨h, (or_iff_left_of_imp fun hr => marked_of_not_called hcall hr.1).symm⟩

theorem Connected.hangupStage (h : Connected w ev.fd s) :
    Connected w ev.fd (hangupStage ev s) ∧
      (((C1000k.hangupStage ev s).gFDITEM ev.fd).mActiveclose = true ↔
        (s.gFDITEM ev.fd).mActiveclose = true ∨ ev.events.epollrdhup = true) := by
  unfold C1000k.hangupStage
  split
  · rename_i hcall
    exact ⟨h.setActiveclose.1, iff_of_true h.setActiveclose.2 (.inr hcall.2)⟩
  · rename_i hcall
    exact ⟨h, (or_iff_left_of_imp fun hr => marked_of_not_called hcall hr).symm⟩

/-- `client_closefun` closes the client and takes its timers out of both indexes. -/
theorem Connected.clientClosefun (h : Connected w fd s) : Gone w fd (clientClosefun w fd s).2 := by
  obtain ⟨armed, hT⟩ := h.timers
  have hnumbered : (s.setItem fd (s.gFDITEM fd).init).Numbered := h.numbered.setItem rfl
  refine ⟨hnumbered, Function.update_self _ _ _, fun w' hmem => ?_, ?_,
    TimerSet.remove armed (.item fd), ?_, fun t ht => ?_⟩
  · exact (WorldOk.mem_close.mp hmem).2 rfl
  · have hitem : (C1000k.clientClosefun w fd s).2.gFDITEM fd = (s.gFDITEM fd).init :=
      Function.update_self _ _ _
    rw [hitem, FDITEM.init, h.numbered fd]
    rfl
  · simp only [C1000k.clientClosefun, World.close, World.setItem, World.setTimer,
      Function.update_self]
    exact hT.removeTimer _
  · have hkept := (List.mem_filter.mp ht).2
    simp at hkept

/-- What an event of the client does: it closes the client when the item is marked, a read or the
write returns 0, or a hang-up is reported. -/
def Closes (ev : Event) (e : EventIo) (s : World) : Prop :=
  (s.gFDITEM ev.fd).mActiveclose = true ∨
    (ev.events.epollin = true ∧ .count 0 ∈ readsMade e.reads) ∨
    (ev.events.epollout = true ∧ e.write = .count 0) ∨ ev.events.epollrdhup = true

theorem Connected.processOneEvent (h : Connected w ev.fd s)
    (hev : processOneEvent w e.io ev s = .ok s') :
    (Closes ev e s ∧ Gone w ev.fd s') ∨ (¬ Closes ev e s ∧ Connected w ev.fd s') := by
  unfold C1000k.processOneEvent at hev
  obtain ⟨s₁, hread, hev⟩ := bind_eq_ok.mp hev
  obtain ⟨s₂, hwrite, hev⟩ := bind_eq_ok.mp hev
  obtain ⟨h₁, hmark₁⟩ := h.readStage hread
  obtain ⟨h₂, hmark₂⟩ := h₁.writeStage hwrite
  obtain ⟨h₃, hmark₃⟩ := h₂.hangupStage
  have hcloses : ((C1000k.hangupStage ev s₂).gFDITEM ev.fd).mActiveclose = true ↔
      Closes ev e s := by
    rw [hmark₃, hmark₂, hmark₁, or_assoc, or_assoc]
    rfl
  unfold closeStage at hev
  split at hev
  · rename_i hmark
    -- the address of the cell is not armed, and what is removed then changes nothing here
    have hcell := h₃.setTimer ((h₃.timers.choose_spec).removeTimer (.cell ev.fd))
    dsimp only at hev
    rw [hcell.client.closefun] at hev
    cases hev
    exact .inl ⟨hcloses.mp hmark, hcell.clientClosefun⟩
  · rename_i hmark
    cases hev
    exact .inr ⟨fun hc => hmark (hcloses.mpr hc), h₃⟩

/-- The event closes the client whatever the reads bring. -/
def HangsUp (ev : Event) (e : EventIo) : Prop :=
  ev.events.epollrdhup = true ∨ (ev.events.epollout = true ∧ e.write = .count 0)

theorem HangsUp.closes (h : HangsUp ev e) : Closes ev e s :=
  h.elim (fun hrd => .inr (.inr (.inr hrd))) fun hwrite => .inr (.inr (.inl hwrite))

/-- The failure itself does not close the client. -/
theorem EventFails.hangsUp (h : Connected w ev.fd s) (hfails : EventFails w ev e s)
    (hcloses : Closes ev e s) : HangsUp ev e := by
  have hreads : (s.gFDITEM ev.fd).mActiveclose ≠ true ∧
      ¬ (ev.events.epollin = true ∧ .count 0 ∈ readsMade e.reads) := by
    rcases hfails with ⟨hmark, -, r, hr, hfails⟩ | ⟨s₁, hread, hmark, -, -⟩
    · exact ⟨by simp [hmark], fun hzero => zero_not_mem_readsMade hr hfails hzero.2⟩
    · -- the write is made only when the reads have not marked the item
      rw [← Bool.not_eq_true, (h.readStage hread).2, not_or] at hmark
      exact hmark
  rcases hcloses with hmark | hzero | hwrite | hrd
  · exact absurd hmark hreads.1
  · exact absurd hzero hreads.2
  · exact .inr hwrite
  · exact .inl hrd

theorem processEvents_leaves {evs : List (Event × EventIo)} (hs : s.Settled w fd)
    (hother : ∀ p ∈ evs, fd ≠ p.1.fd) (h : processEvents w evs s = .ok s') :
    Leaves w fd s s' := by
  induction evs generalizing s with
  | nil =>
    cases h
    exact .refl _
  | cons p evs ih =>
    obtain ⟨s₁, hev, hrest⟩ := bind_eq_ok.mp h
    have hleaves : Leaves w fd s s₁ := .processOneEvent (hother p List.mem_cons_self) hs hev
    exact hleaves.trans (ih (hleaves.settled hs)
      (fun p hp => hother p (List.mem_cons_of_mem _ hp)) hrest)

theorem not_batchFails {evs : List (Event × EventIo)} (hother : ∀ p ∈ evs, fd ≠ p.1.fd) :
    ¬ BatchFails w fd evs s := by
  induction evs generalizing s with
  | nil => exact id
  | cons p evs ih =>
    rintro (⟨hfd, -⟩ | ⟨s₁, -, hrest⟩)
    · exact hother p List.mem_cons_self hfd.symm
    · exact ih (fun p hp => hother p (List.mem_cons_of_mem _ hp)) hrest

/-- After the events the client is gone or still connected; it is gone if its event hangs up, and
only then if one of its reads or its write has failed. -/
theorem processEvents_spec {evs : List (Event × EventIo)} (h : Connected w fd s)
    (hnodup : (evs.map (·.1.fd)).Nodup) (hevs : processEvents w evs s = .ok s') :
    (Gone w fd s' ∧ (BatchFails w fd evs s → ∃ p ∈ evs, p.1.fd = fd ∧ HangsUp p.1 p.2)) ∨
      (Connected w fd s' ∧ ∀ p ∈ evs, p.1.fd = fd → ¬ HangsUp p.1 p.2) := by
  induction evs generalizing s with
  | nil =>
    cases hevs
    exact .inr ⟨h, fun p hp => nomatch hp⟩
  | cons p evs ih =>
    obtain ⟨ev, e⟩ := p
    obtain ⟨s₁, hev, hrest⟩ := bind_eq_ok.mp hevs
    rw [List.map_cons, List.nodup_cons] at hnodup
    by_cases hfd : fd = ev.fd
    -- its own event; epoll reports a descriptor once, so the rest of the batch is about others
    · subst hfd
      have hother : ∀ p ∈ evs, ev.fd ≠ p.1.fd :=
        fun p hp heq => hnodup.1 (heq ▸ List.mem_map_of_mem hp)
      rcases h.processOneEvent hev with ⟨hcloses, hgone⟩ | ⟨hopen, hkept⟩
      · have hleaves := processEvents_leaves (.inl hgone.closed) hother hrest
        refine .inl ⟨hgone.leaves hleaves, fun hfails => ?_⟩
        rcases hfails with ⟨-, hfails⟩ | ⟨s₂, -, hfails⟩
        · exact ⟨(ev, e), List.mem_cons_self, rfl, hfails.hangsUp h hcloses⟩
        · exact absurd hfails (not_batchFails hother)
      · have hleaves := processEvents_leaves (.inr hkept.registered) hother hrest
        refine .inr ⟨hkept.leaves hleaves, fun p hp heq hup => ?_⟩
        rcases List.mem_cons.mp hp with rfl | hp
        · exact hopen hup.closes
        · exact hother p hp heq.symm
    · have hleaves : Leaves w fd s s₁ := .processOneEvent hfd (.inr h.registered) hev
      rcases ih (h.leaves hleaves) hnodup.2 hrest with ⟨hgone, hwhy⟩ | ⟨hkept, hnone⟩
      · refine .inl ⟨hgone, fun hfails => ?_⟩
        rcases hfails with ⟨heq, -⟩ | ⟨s₂, hev', hfails⟩
        · exact absurd heq.symm hfd
        · obtain rfl := Except.ok.inj (hev.symm.trans hev')
          obtain ⟨p, hp, hup⟩ := hwhy hfails
          exact ⟨p, List.mem_cons_of_mem _ hp, hup⟩
      · refine .inr ⟨hkept, fun p hp heq => ?_⟩
        rcases List.mem_cons.mp hp with rfl | hp
        · exact absurd heq.symm hfd
        · exact hnone p hp heq

/-- A round of the loop over the timers writes to the client of one timer and arms it again. -/
theorem timedTask_fires {timeStamp : TimeValue} {len : ℤ} {armed : List (TimeValue × VoidPtr)}
    (hnumbered : s.Numbered) (hT : (s.timer w).Represents armed)
    (h : timedTask w timeStamp len s = .ok (some s')) :
    ∃ i t T, (t, VoidPtr.item i) ∈ armed ∧
      (s.timer w).getTimer timeStamp = some (some (.item i), T) ∧
      T.Represents (armed.erase (t, .item i)) ∧
      s' = (C1000k.countSended i len s).setTimer w (T.addTimer (.item i) (timeStamp+10*1000)) := by
  unfold timedTask at h
  rcases hT.getTimer_cases timeStamp with ⟨-, T, hget⟩ | ⟨⟨t, x⟩, T, hp, -, hget, hT'⟩
  · rw [hget] at h
    cases h
  · rw [hget] at h
    cases x with
    | cell i => cases h
    | item i =>
      dsimp only at h
      split at h
      · cases h
        refine ⟨i, t, T, (TimerSet.earliest_spec hp).1, hget, hT', ?_⟩
        rw [hnumbered i, WorldOk.clientTimeoutfun_setTimer]
      · cases h

theorem timedTask_leaves {timeStamp later : TimeValue} {i : ℕ} (hne : fd ≠ i) (len : ℤ)
    {T : TIMER VoidPtr} (hget : (s.timer w).getTimer timeStamp = some (some (.item i), T)) :
    Leaves w fd s ((C1000k.countSended i len s).setTimer w (T.addTimer (.item i) later)) := by
  refine (Leaves.countSended hne len).trans (.setTimer fun armed hT => ?_)
  rw [(countSended_keeps i len s).1] at hT
  rcases hT.getTimer_cases timeStamp with ⟨-, T', hget'⟩ | ⟨⟨t, x⟩, T', -, -, hget', hT'⟩
  · cases hget.symm.trans hget'
  · cases hget.symm.trans hget'
    refine ⟨_, hT'.addTimer _ _, fun t ht => ?_⟩
    rcases List.mem_append.mp ht with ht | ht
    · exact List.mem_of_mem_erase ht
    · cases List.mem_singleton.mp ht
      exact absurd rfl hne

/-- The callback of a connected client arms it again, whatever `write` returned. -/
theorem Connected.timedTask (h : Connected w fd s) {timeStamp : TimeValue} {r : IoRet}
    (htask : timedTask w timeStamp r.len s = .ok (some s')) : Connected w fd s' := by
  obtain ⟨armed, hT⟩ := h.timers
  obtain ⟨i, t, T, -, hget, hT', rfl⟩ := timedTask_fires h.numbered hT htask
  by_cases hi : fd = i
  · subst hi
    exact (h.countSended r).1.setTimer (hT'.addTimer _ _)
  · exact h.leaves (timedTask_leaves hi r.len hget)

/-- A client that is gone has no timer that could fire. -/
theorem Gone.timedTask (h : Gone w fd s) {timeStamp : TimeValue} {len : ℤ}
    (htask : timedTask w timeStamp len s = .ok (some s')) :
    Gone w fd s' ∧ ((s.timer w).getTimer timeStamp).bind (·.1) ≠ some (.item fd) := by
  obtain ⟨armed, hT, hnone⟩ := h.timers
  obtain ⟨i, t, T, hmem, hget, -, rfl⟩ := timedTask_fires h.numbered hT htask
  have hi : fd ≠ i := fun heq => hnone t (heq ▸ hmem)
  refine ⟨h.leaves (timedTask_leaves hi len hget), ?_⟩
  rw [hget]
  exact fun heq => hi (VoidPtr.item.inj (Option.some.inj heq)).symm

/-- The loop over the timers ends, or makes a round and goes on. -/
theorem timedPhase_cases {timeStamp : TimeValue} {len : ℕ → ℤ} {fuel : ℕ} {fired : List VoidPtr}
    (h : timedPhase w timeStamp len fuel s = .ok (some (fired, s'))) :
    (fired = [] ∧ s' = s) ∨ ∃ fuel' s₁ fired', fuel = fuel'+1 ∧
      C1000k.timedTask w timeStamp (len 0) s = .ok (some s₁) ∧
      timedPhase w timeStamp (fun k => len (k+1)) fuel' s₁ = .ok (some (fired', s')) ∧
      fired = (((s.timer w).getTimer timeStamp).bind (·.1)).toList ++ fired' := by
  cases fuel with
  | zero => cases h
  | succ fuel =>
    rw [timedPhase] at h
    split at h
    · cases h
    · cases h
      exact .inl ⟨rfl, rfl⟩
    · rename_i s₁ htask
      obtain ⟨r, hphase, hr⟩ := map_eq_ok.mp h
      obtain ⟨⟨fired', s₂⟩, rfl, heq⟩ := Option.map_eq_some_iff.mp hr
      cases heq
      exact .inr ⟨fuel, s₁, fired', rfl, htask, hphase, rfl⟩

theorem Connected.timedPhase (h : Connected w fd s) {timeStamp : TimeValue} {writes : ℕ → IoRet}
    {fuel : ℕ} {fired : List VoidPtr}
    (hphase : timedPhase w timeStamp (fun k => (writes k).len) fuel s = .ok (some (fired, s'))) :
    Connected w fd s' := by
  induction fuel generalizing s fired writes with
  | zero => cases hphase
  | succ fuel ih =>
    rcases timedPhase_cases hphase with ⟨-, rfl⟩ | ⟨fuel', s₁, fired', hfuel, htask, hrest, -⟩
    · exact h
    · cases hfuel
      have hkept : Connected w fd s₁ := h.timedTask htask
      exact @ih s₁ hkept (fun k => writes (k+1)) fired' hrest

theorem Gone.timedPhase (h : Gone w fd s) {timeStamp : TimeValue} {len : ℕ → ℤ} {fuel : ℕ}
    {fired : List VoidPtr}
    (hphase : timedPhase w timeStamp len fuel s = .ok (some (fired, s'))) :
    Gone w fd s' ∧ VoidPtr.item fd ∉ fired := by
  induction fuel generalizing s fired len with
  | zero => cases hphase
  | succ fuel ih =>
    rcases timedPhase_cases hphase with ⟨rfl, rfl⟩ | ⟨fuel', s₁, fired', hfuel, htask, hrest, rfl⟩
    · exact ⟨h, List.not_mem_nil⟩
    · cases hfuel
      obtain ⟨hgone, hfired⟩ := h.timedTask htask
      obtain ⟨hend, hlater⟩ := ih hgone hrest
      refine ⟨hend, fun hmem => ?_⟩
      rcases List.mem_append.mp hmem with hmem | hmem
      · exact hfired (Option.mem_toList.mp hmem)
      · exact hlater hmem

/-- A `read` or `write` on a client fails in the round: while its event is handled, or when its
timer fires. Then the client is closed and disarmed by the end of the round exactly when its event
hangs up. -/
theorem failed_closed_iff_hangsUp {evs : List (Event × EventIo)} {timeStamp : TimeValue}
    {writes : ℕ → IoRet} {fuel : ℕ} {fired : List VoidPtr} (h : Connected w fd s)
    (hnodup : (evs.map (·.1.fd)).Nodup)
    (hround : processEvent w evs timeStamp writes fuel s = .ok (some (fired, s')))
    (hfails : BatchFails w fd evs s ∨
      ∃ k, fired[k]? = some (.item fd) ∧ (writes k).Fails) :
    Closed w fd s' ↔ ∃ p ∈ evs, p.1.fd = fd ∧ HangsUp p.1 p.2 := by
  obtain ⟨t, hevs, hphase⟩ := bind_eq_ok.mp hround
  rcases processEvents_spec h hnodup hevs with ⟨hgone, hwhy⟩ | ⟨hkept, hnone⟩
  · obtain ⟨hend, hnever⟩ := hgone.timedPhase hphase
    refine iff_of_true hend.isClosed ?_
    -- without a timer the client is not written to again, so the failure was in its event
    rcases hfails with hfails | ⟨k, hk, -⟩
    · exact hwhy hfails
    · exact absurd (List.mem_of_getElem? hk) hnever
  · refine iff_of_false (hkept.timedPhase hphase).not_closed ?_
    rintro ⟨p, hp, hfd, hup⟩
    exact hnone p hp hfd hup

end Stages

end Round

section ResetClient

attribute [local instance] VoidPtr.order

/-- Worker 1 with client 7, whose timer is due at time 10000. -/
def client7 : World where
  gFDITEM := fun i => if i = 7 then (FDITEM.new 7).client else FDITEM.new i
  opened := fun i => decide (i = 7)
  interest := fun w => if w = 1 then [7] else []
  timer := fun _ => TIMER.empty.addTimer (.item 7) 10000

theorem client7_connected : Connected 1 7 client7 where
  numbered := fun i => by
    by_cases hi : i = 7
    · subst hi
      rfl
    · simp [client7, hi, FDITEM.new]
  opened := rfl
  registered := by decide
  client := FDITEM.client_isClient _
  timers := ⟨_, TIMER.Represents.empty.addTimer _ _⟩

/-- The peer has reset the connection: `read` fails with `ECONNRESET`. -/
def reset : EventIo := ⟨[], [.error (.other 104)], .count 0⟩

theorem reset_fails {events : Events} (hin : events.epollin = true) :
    BatchFails 1 7 [(⟨7, events⟩, reset)] client7 := by
  refine .inl ⟨rfl, .inl ⟨rfl, hin, .error (.other 104), ?_, nofun, nofun⟩⟩
  exact List.mem_cons_self

/-- A hang-up reported with the failed read. -/
def resetHangup : List (Event × EventIo) := [(⟨7, ⟨true, false, true, false, false⟩⟩, reset)]

theorem failed_closed_iff_hangsUp_reset : ∃ fired s',
    processEvent 1 resetHangup 0 (fun _ => .count 1) 2 client7 = .ok (some (fired, s')) ∧
      Closed 1 7 s' := by
  obtain ⟨fired, s', hround⟩ : ∃ fired s',
      processEvent 1 resetHangup 0 (fun _ => .count 1) 2 client7 = .ok (some (fired, s')) :=
    ⟨_, _, rfl⟩
  refine ⟨fired, s', hround, (failed_closed_iff_hangsUp client7_connected (by decide) hround
    (.inl (reset_fails rfl))).mpr ?_⟩
  exact ⟨_, List.mem_cons_self, rfl, .inl rfl⟩

/-- The same under the subscription the worker makes: the client stays, and so does its timer. -/
theorem reset_not_closed :
    ¬ ∀ (w fd : ℕ) (evs : List (Event × EventIo)) (timeStamp : TimeValue) (writes : ℕ → IoRet)
      (fuel : ℕ) (fired : List VoidPtr) (s s' : World), Connected w fd s →
        (evs.map (·.1.fd)).Nodup →
        processEvent w evs timeStamp writes fuel s = .ok (some (fired, s')) →
        (BatchFails w fd evs s ∨ ∃ k, fired[k]? = some (.item fd) ∧ (writes k).Fails) →
        Closed w fd s' := by
  intro hall
  have hclosed := hall 1 7 [(⟨7, .inEt⟩, reset)] 0 (fun _ => .count 1) 2 [] client7 client7
    client7_connected (by decide) rfl (.inl (reset_fails rfl))
  exact absurd hclosed.closed (by decide)

end ResetClient

end LinuxPrograms.C1000k
