import LinuxPrograms.C1000kEffects

/-! The edge-triggered listening socket. epoll reports a connection once, after it has arrived, so
whatever `accept_readfun` leaves in the queue waits for the next arrival. The queue and the edge
are followed beside the server. -/
namespace LinuxPrograms.C1000k
open Lib

/-- What a step of the server can do to the main thread. -/
inductive MainMove (cfg : Config) : MainPc → Act → MainPc → Prop
  | stays (pc : MainPc) (a : Act) (ha : ¬ a.IsMain) : MainMove cfg pc a pc
  | woken (evs : List Event) : MainMove cfg .wait (.epollWait evs) (.scan evs)
  | enters (p : Point) (hst : p.stage = .read) (hl : ReportsListener cfg p.ev) :
      MainMove cfg (.handling p) .mainStep (.accept p.ev.fd [] { p with stage := .write })
  | passes (p : Point) (stage : Stage) (hp : ¬ (p.stage = .read ∧ ReportsListener cfg p.ev)) :
      MainMove cfg (.handling p) .mainStep (.handling { p with stage := stage })
  | leavesEvent (p : Point) (hst : p.stage = .hangup) :
      MainMove cfg (.handling p) .mainStep (.scan p.evs)
  | takes (fd n : ℕ) (fdBuff fdBuff' : List ℕ) (ret : Point) (pc : MainPc)
      (hpc : pc = .accept fd fdBuff' ret ∨ pc = .push fd fdBuff' true ret) :
      MainMove cfg (.accept fd fdBuff ret) (.accept (.fd n)) pc
  | fails (fd : ℕ) (fdBuff : List ℕ) (ret : Point) (errno : Errno)
      (hgo : ∀ n, errno ≠ .other n) :
      MainMove cfg (.accept fd fdBuff ret) (.accept (.error errno))
        (if fdBuff = [] then .handling ret else .push fd fdBuff false ret)
  | pushes (fd : ℕ) (fdBuff : List ℕ) (again : Bool) (ret : Point) :
      MainMove cfg (.push fd fdBuff again ret) .push
        (if again then .accept fd [] ret else .handling ret)

theorem acceptStep_mainMove {cfg : Config} {s s' : Server} {fd : ℕ} {fdBuff : List ℕ} {ret : Point}
    (hpc : s.main = .accept fd fdBuff ret) {r : AcceptRet}
    (h : acceptStep s fd fdBuff ret r = some s') : MainMove cfg s.main (.accept r) s'.main := by
  cases r with
  | fd n =>
    simp only [acceptStep] at h
    split at h
    · cases h
    split at h
    · cases h
      rw [hpc]
      exact .takes fd n fdBuff fdBuff ret _ (.inl rfl)
    · cases h
      rw [hpc]
      refine .takes fd n fdBuff (fdBuff ++ [n]) ret _ ?_
      dsimp only
      split
      · exact .inl rfl
      · exact .inr rfl
  | error errno =>
    have hs' : (∀ n, errno ≠ .other n) ∧ s' = { s with
        main := if fdBuff = [] then .handling ret else .push fd fdBuff false ret } := by
      cases errno with
      | other => cases h
      | _ => exact ⟨fun _ hn => (by cases hn), (Option.some.inj h).symm⟩
    rw [hs'.2, hpc]
    exact .fails fd fdBuff ret errno hs'.1

theorem mainStep_mainMove {cfg : Config} {s s' : Server} (hreg : Registered cfg s) {p : Point}
    (hp : s.main = .handling p) (h : mainStep s p = some s') :
    MainMove cfg s.main .mainStep s'.main := by
  rw [hp]
  obtain ⟨hst, hl, rfl⟩ | ⟨-, hl, rfl⟩ | ⟨hst, rfl⟩ | ⟨hst, rfl⟩ := mainStep_cases hreg hp h
  · exact .enters p hst hl
  · exact .passes p .write fun hread => hl hread.2
  · exact .passes p .hangup fun hread => by rw [hst] at hread; cases hread.1
  · exact .leavesEvent p hst

/-- The main thread moves only by its own steps. -/
theorem next_mainMove {cfg : Config} {s s' : Server} {a : Act} (hreg : Registered cfg s)
    (h : next cfg s a = some s') : MainMove cfg s.main a s'.main := by
  by_cases ha : a.IsMain
  · obtain ⟨evs, rfl, hpc, -, rfl⟩ | ⟨p, rfl, hpc, hs⟩ | ⟨r, fd, fdBuff, ret, rfl, hpc, hs⟩ |
      ⟨fd, fdBuff, again, ret, rfl, hpc, rfl⟩ := next_isMain hreg ha h
    · rw [hpc]
      exact .woken evs
    · exact mainStep_mainMove hreg hpc hs
    · exact acceptStep_mainMove hpc hs
    · rw [hpc]
      exact .pushes fd fdBuff again ret
  · have hmain : s'.main = s.main := by
      cases next_effect hreg h with
      | control _ _ ha' => exact absurd ha' ha
      | accepted => exact absurd trivial ha
      | pushed => exact absurd trivial ha
      | _ => rfl
    rw [hmain]
    exact .stays s.main a ha

/-! The queue of the listening socket. -/

/-- Main is inside `accept_readfun`. -/
def MainPc.accepting : MainPc → Bool
  | .accept _ _ _ | .push _ _ _ _ => true
  | _ => false

/-- A report of the listening socket is still to be handled. -/
def Point.WillAccept (cfg : Config) (p : Point) : Prop :=
  (p.stage = .read ∧ ReportsListener cfg p.ev) ∨ ∃ ev ∈ p.evs, ReportsListener cfg ev

/-- Main will call `accept` again before it waits for events. -/
def MainPc.WillAccept (cfg : Config) : MainPc → Prop
  | .wait => False
  | .handling p => p.WillAccept cfg
  | .accept _ _ _ => True
  | .push _ _ again ret => again = true ∨ ret.WillAccept cfg
  | .send _ ret => ret.WillAccept cfg

/-- The server and its listening socket: the connections waiting there, an edge epoll has yet to
report, what the last `accept` returned, and what the last `accept` of each finished
`accept_readfun` returned. -/
structure Listening where
  server : Server
  backlog : ℕ
  edge : Bool
  last : Option AcceptRet
  returned : List (Option AcceptRet)

inductive ListenAct
  | arrive
  | server (a : Act)

def Act.result : Act → Option AcceptRet
  | .accept r => some r
  | _ => none

def Act.reported : Act → List Event
  | .epollWait evs => evs
  | _ => []

/-- A descriptor takes a connection, and `EAGAIN` means that there is none; the other errors can
come at any time. -/
def AcceptRet.Possible (backlog : ℕ) : AcceptRet → Prop
  | .fd _ => 0 < backlog
  | .error .EAGAIN => backlog = 0
  | .error _ => True

instance (backlog : ℕ) : DecidablePred (AcceptRet.Possible backlog)
  | .fd _ => inferInstanceAs (Decidable (0 < backlog))
  | .error .EAGAIN => inferInstanceAs (Decidable (backlog = 0))
  | .error .ECONNABORTED | .error .EPROTO | .error .EINTR | .error (.other _) => isTrue trivial

/-- Whether a connection leaves the queue; an aborted one does. -/
def AcceptRet.takes : AcceptRet → ℕ
  | .fd _ | .error .ECONNABORTED | .error .EPROTO => 1
  | .error _ => 0

/-- epoll reports the listening socket only after an edge, with `EPOLLIN` while a connection
waits. -/
def Listening.Allows (cfg : Config) (l : Listening) (a : Act) : Prop :=
  (∀ ev ∈ a.reported, ev.fd = cfg.listenfd →
    l.edge = true ∧ (0 < l.backlog → ev.events.epollin = true)) ∧
  ∀ r ∈ a.result, r.Possible l.backlog

instance (cfg : Config) (l : Listening) (a : Act) : Decidable (l.Allows cfg a) :=
  inferInstanceAs (Decidable (_ ∧ _))

/-- The listening socket after a step of the server to `s`. A report uses up the edge. -/
def Listening.observe (cfg : Config) (l : Listening) (a : Act) (s : Server) : Listening where
  server := s
  backlog := l.backlog-(a.result.map AcceptRet.takes).getD 0
  edge := l.edge && a.reported.all fun ev => ev.fd ≠ cfg.listenfd
  last := a.result.or l.last
  returned := if l.server.main.accepting && !s.main.accepting then
    l.returned ++ [a.result.or l.last] else l.returned

def nextListening (cfg : Config) (l : Listening) : ListenAct → Option Listening
  | .arrive => some { l with backlog := l.backlog+1, edge := true }
  | .server a =>
    if l.Allows cfg a then (next cfg l.server a).map (l.observe cfg a) else none

/-- Connections that wait when main registers the socket are an edge. -/
def Listening.start (cfg : Config) (room : ℕ → ℕ) (backlog : ℕ) : Listening :=
  ⟨setup cfg room, backlog, 0 < backlog, none, []⟩

/-- Every finished `accept_readfun` ended with `EAGAIN`, and when main is not about to accept, no
connection waits without an edge. -/
def Drained (cfg : Config) (l : Listening) : Prop :=
  (∀ r ∈ l.returned, r = some (.error .EAGAIN)) ∧
    (¬ l.server.main.WillAccept cfg → l.backlog = 0 ∨ l.edge = true)

/-- `accept` fails for another reason than an empty queue, and the server does not exit. -/
def ListenAct.transient : ListenAct → Bool
  | .server (.accept (.error .ECONNABORTED)) | .server (.accept (.error .EPROTO))
  | .server (.accept (.error .EINTR)) => true
  | _ => false

theorem nextListening_cases {cfg : Config} {l l' : Listening} {a : ListenAct}
    (h : nextListening cfg l a = some l') :
    (a = .arrive ∧ l' = { l with backlog := l.backlog+1, edge := true }) ∨
    ∃ b s, a = .server b ∧ l.Allows cfg b ∧ next cfg l.server b = some s ∧
      l' = l.observe cfg b s := by
  cases a with
  | arrive => exact .inl ⟨rfl, (Option.some.inj h).symm⟩
  | server b =>
    simp only [nextListening] at h
    split at h
    · rename_i hallows
      obtain ⟨s, hs, hl⟩ := Option.map_eq_some_iff.mp h
      exact .inr ⟨b, s, rfl, hallows, hs, hl.symm⟩
    · cases h

theorem scan_willAccept {cfg : Config} {evs : List Event} :
    (MainPc.scan evs).WillAccept cfg ↔ ∃ ev ∈ evs, ReportsListener cfg ev := by
  cases evs with
  | nil => simp [MainPc.scan, MainPc.WillAccept]
  | cons ev evs => simp [MainPc.scan, MainPc.WillAccept, Point.WillAccept]

theorem result_eq_none {a : Act} (ha : ¬ a.IsMain) : a.result = none := by
  cases a <;> first | rfl | exact absurd trivial ha

/-- From the last critical section main leaves `accept_readfun`. -/
theorem MainMove.fromPush {cfg : Config} {pc' : MainPc} {a : Act} {fd : ℕ} {fdBuff : List ℕ}
    {ret : Point} (h : MainMove cfg (.push fd fdBuff false ret) a pc') :
    a.result = none ∧ (pc' = .push fd fdBuff false ret ∨ pc'.accepting = false) := by
  cases h with
  | stays _ _ ha => exact ⟨result_eq_none ha, .inl rfl⟩
  | pushes => exact ⟨rfl, .inr rfl⟩

/-- After a failed `accept` main leaves `accept_readfun`, or enters the last critical section. -/
theorem MainMove.fromAccept {cfg : Config} {pc pc' : MainPc} {errno : Errno}
    (h : MainMove cfg pc (.accept (.error errno)) pc') :
    pc.accepting = true ∧
      (pc'.accepting = false ∨ ∃ fd fdBuff ret, pc' = .push fd fdBuff false ret) := by
  cases h with
  | stays _ _ ha => exact absurd trivial ha
  | fails fd fdBuff ret =>
    refine ⟨rfl, ?_⟩
    by_cases hempty : fdBuff = []
    · rw [if_pos hempty]
      exact .inl rfl
    · rw [if_neg hempty]
      exact .inr ⟨fd, fdBuff, ret, rfl⟩

theorem MainMove.ne_other {cfg : Config} {pc pc' : MainPc} {errno : Errno}
    (h : MainMove cfg pc (.accept (.error errno)) pc') : ∀ n, errno ≠ .other n := by
  cases h with
  | stays _ _ ha => exact absurd trivial ha
  | fails _ _ _ _ hgo => exact hgo

theorem MainMove.reported {cfg : Config} {pc pc' : MainPc} {a : Act} (h : MainMove cfg pc a pc')
    {ev : Event} (hev : ev ∈ a.reported) : pc' = .scan a.reported := by
  cases h with
  | stays _ _ ha => cases a <;> first | exact absurd trivial ha | cases hev
  | woken evs => rfl
  | _ => cases hev

/-- Unless `accept` fails, what main is about to accept stays so. -/
theorem MainMove.willAccept {cfg : Config} {pc pc' : MainPc} {a : Act} (h : MainMove cfg pc a pc')
    (ha : ∀ errno, a ≠ .accept (.error errno)) (hw : pc.WillAccept cfg) : pc'.WillAccept cfg := by
  cases h with
  | stays => exact hw
  | woken => exact hw.elim
  | enters => trivial
  | passes p stage hp => exact .inr (hw.resolve_left hp)
  | leavesEvent p hst =>
    refine scan_willAccept.mpr (hw.resolve_left fun hread => ?_)
    rw [hst] at hread
    cases hread.1
  | takes fd n fdBuff fdBuff' ret pc hpc =>
    rcases hpc with rfl | rfl
    · trivial
    · exact .inl rfl
  | fails => exact absurd rfl (ha _)
  | pushes fd fdBuff again ret =>
    cases again with
    | true => trivial
    | false => exact hw.resolve_left Bool.false_ne_true

/-- `accept_readfun` is left after a failed `accept` only: at once, or after the critical section
that follows it. -/
theorem MainMove.leaves {cfg : Config} {pc pc' : MainPc} {a : Act} (h : MainMove cfg pc a pc')
    (hin : pc.accepting = true) (hout : pc'.accepting = false) :
    (∃ errno, a = .accept (.error errno)) ∨
      (a.result = none ∧ ∃ fd fdBuff ret, pc = .push fd fdBuff false ret) := by
  cases h with
  | stays => rw [hin] at hout; cases hout
  | takes fd n fdBuff fdBuff' ret pc hpc => rcases hpc with rfl | rfl <;> cases hout
  | fails fd fdBuff ret errno => exact .inl ⟨errno, rfl⟩
  | pushes fd fdBuff again ret =>
    cases again with
    | true => cases hout
    | false => exact .inr ⟨rfl, fd, fdBuff, ret, rfl⟩
  | _ => cases hin

/-- The last critical section comes after a failed `accept`. -/
theorem MainMove.toPush {cfg : Config} {pc pc' : MainPc} {a : Act} (h : MainMove cfg pc a pc')
    {fd : ℕ} {fdBuff : List ℕ} {ret : Point} (hpc : pc' = .push fd fdBuff false ret) :
    (∃ errno, a = .accept (.error errno)) ∨
      (a.result = none ∧ pc = .push fd fdBuff false ret) := by
  cases h with
  | stays _ _ ha => exact .inr ⟨result_eq_none ha, hpc⟩
  | woken evs => cases evs <;> cases hpc
  | leavesEvent p => cases hp : p.evs <;> rw [hp] at hpc <;> cases hpc
  | takes _ _ _ _ _ _ hpc' => rcases hpc' with rfl | rfl <;> cases hpc
  | fails _ _ _ errno => exact .inl ⟨errno, rfl⟩
  | pushes _ _ again => cases again <;> cases hpc
  | _ => cases hpc

section Drain
variable {cfg : Config}

/-- While no transient error comes, a waiting connection has an edge or will be accepted. -/
structure Watched (cfg : Config) (l : Listening) : Prop where
  registered : Registered cfg l.server
  returned : ∀ r ∈ l.returned, r = some (.error .EAGAIN)
  leaving : ∀ fd fdBuff ret, l.server.main = .push fd fdBuff false ret →
    l.last = some (.error .EAGAIN)
  watched : 0 < l.backlog → l.edge = true ∨ l.server.main.WillAccept cfg

theorem Watched.drained {l : Listening} (h : Watched cfg l) : Drained cfg l := by
  refine ⟨h.returned, fun hw => ?_⟩
  rcases Nat.eq_zero_or_pos l.backlog with hempty | hwaits
  · exact .inl hempty
  · exact .inr ((h.watched hwaits).resolve_right hw)

theorem eagain_of_not_transient {errno : Errno} (hgo : ∀ n, errno ≠ .other n)
    (h : (ListenAct.server (.accept (.error errno))).transient = false) : errno = .EAGAIN := by
  cases errno with
  | EAGAIN => rfl
  | other n => exact absurd rfl (hgo n)
  | _ => cases h

/-- When main leaves `accept_readfun`, what the last `accept` returned is recorded. -/
theorem mem_observe_returned {l : Listening} {b : Act} {s : Server} {r : Option AcceptRet} :
    r ∈ (l.observe cfg b s).returned ↔
      r ∈ l.returned ∨ (l.server.main.accepting = true ∧ s.main.accepting = false ∧
        r = b.result.or l.last) := by
  simp only [Listening.observe]
  by_cases hleaves : (l.server.main.accepting && !s.main.accepting) = true
  · rw [if_pos hleaves, List.mem_append, List.mem_singleton]
    rw [Bool.and_eq_true, Bool.not_eq_true'] at hleaves
    simp only [hleaves, true_and]
  · rw [if_neg hleaves]
    refine ⟨.inl, fun h => h.resolve_right fun hr => hleaves ?_⟩
    rw [hr.1, hr.2.1]
    rfl

theorem nextListening_registered {l l' : Listening} {a : ListenAct}
    (hreg : Registered cfg l.server) (h : nextListening cfg l a = some l') :
    Registered cfg l'.server := by
  obtain ⟨rfl, rfl⟩ | ⟨b, s, rfl, -, hs, rfl⟩ := nextListening_cases h
  · exact hreg
  · exact (next_effect hreg hs).registered hreg

theorem Watched.observe_watched {l : Listening} {b : Act} {s : Server} (h : Watched cfg l)
    (hallows : l.Allows cfg b) (hstep : next cfg l.server b = some s)
    (hb : (ListenAct.server b).transient = false) :
    0 < (l.observe cfg b s).backlog →
      (l.observe cfg b s).edge = true ∨ s.main.WillAccept cfg := by
  have hmove := next_mainMove h.registered hstep
  intro hwaits
  have hwaits' : 0 < l.backlog := lt_of_lt_of_le hwaits (Nat.sub_le _ _)
  by_cases hfail : ∃ errno, b = .accept (.error errno)
  · obtain ⟨errno, rfl⟩ := hfail
    -- `EAGAIN` means that the queue is empty
    obtain rfl := eagain_of_not_transient hmove.ne_other hb
    exact absurd (hallows.2 _ rfl) hwaits'.ne'
  have hkeeps := hmove.willAccept fun errno hb => hfail ⟨errno, hb⟩
  rcases h.watched hwaits' with hedge | hw
  · by_cases hreport : ∃ ev ∈ b.reported, ev.fd = cfg.listenfd
    · -- the report that uses up the edge is the one main handles next
      right
      obtain ⟨ev, hev, hfd⟩ := hreport
      have hin := (hallows.1 ev hev hfd).2 hwaits'
      rw [hmove.reported hev]
      exact scan_willAccept.mpr ⟨ev, hev, hfd, hin⟩
    · left
      simp only [Listening.observe, hedge, Bool.true_and, List.all_eq_true, decide_eq_true_eq]
      exact fun ev hev hfd => hreport ⟨ev, hev, hfd⟩
  · exact .inr (hkeeps hw)

theorem Watched.step {l l' : Listening} {a : ListenAct} (h : Watched cfg l)
    (hstep : nextListening cfg l a = some l') (ha : a.transient = false) : Watched cfg l' := by
  obtain ⟨rfl, rfl⟩ | ⟨b, s, rfl, hallows, hs, rfl⟩ := nextListening_cases hstep
  -- an arrival is an edge
  · exact ⟨h.registered, h.returned, h.leaving, fun _ => .inl rfl⟩
  have hmove := next_mainMove h.registered hs
  refine ⟨nextListening_registered h.registered hstep, fun r hr => ?_, fun fd fdBuff ret hpc => ?_,
    h.observe_watched hallows hs ha⟩
  · rcases mem_observe_returned.mp hr with hr | ⟨hin, hout, rfl⟩
    · exact h.returned r hr
    -- the call has just ended: by `EAGAIN`, or after the critical section that follows it
    · obtain ⟨errno, rfl⟩ | ⟨hnone, fd, fdBuff, ret, hpc⟩ := hmove.leaves hin hout
      · rw [eagain_of_not_transient hmove.ne_other ha]
        rfl
      · rw [hnone, Option.none_or]
        exact h.leaving fd fdBuff ret hpc
  · obtain ⟨errno, rfl⟩ | ⟨hnone, hbefore⟩ := hmove.toPush hpc
    · rw [eagain_of_not_transient hmove.ne_other ha]
      rfl
    · simp only [Listening.observe, hnone, Option.none_or]
      exact h.leaving fd fdBuff ret hbefore

theorem start_watched (room : ℕ → ℕ) (backlog : ℕ) : Watched cfg (.start cfg room backlog) where
  registered := setup_registered cfg room
  returned := fun _ hr => nomatch hr
  leaving := fun _ _ _ hpc => nomatch hpc
  watched := fun hwaits => .inl (decide_eq_true hwaits)

/-- An `accept_readfun` has ended otherwise than with `EAGAIN`, or is about to. -/
def Undrained (l : Listening) : Prop :=
  (∃ r ∈ l.returned, r ≠ some (.error .EAGAIN)) ∨
    ∃ fd fdBuff ret, l.server.main = .push fd fdBuff false ret ∧ l.last ≠ some (.error .EAGAIN)

theorem Undrained.step {l l' : Listening} {a : ListenAct} (hreg : Registered cfg l.server)
    (h : Undrained l) (hstep : nextListening cfg l a = some l') : Undrained l' := by
  obtain ⟨rfl, rfl⟩ | ⟨b, s, rfl, hallows, hs, rfl⟩ := nextListening_cases hstep
  · exact h
  -- what is recorded stays recorded, and what is about to be recorded stays or is recorded
  rcases h with ⟨r, hr, hne⟩ | ⟨fd, fdBuff, ret, hpc, hlast⟩
  · exact .inl ⟨r, mem_observe_returned.mpr (.inl hr), hne⟩
  · have hmove := next_mainMove hreg hs
    rw [hpc] at hmove
    obtain ⟨hnone, hstays | hout⟩ := hmove.fromPush
    · refine .inr ⟨fd, fdBuff, ret, hstays, ?_⟩
      simpa only [Listening.observe, hnone, Option.none_or] using hlast
    · refine .inl ⟨l.last, mem_observe_returned.mpr (.inr ⟨by rw [hpc]; rfl, hout, ?_⟩), hlast⟩
      rw [hnone, Option.none_or]

/-- A transient error ends the call it comes in. -/
theorem undrained_of_transient {l l' : Listening} {a : ListenAct} (hreg : Registered cfg l.server)
    (ha : a.transient = true) (hstep : nextListening cfg l a = some l') : Undrained l' := by
  obtain ⟨rfl, rfl⟩ | ⟨b, s, rfl, hallows, hs, rfl⟩ := nextListening_cases hstep
  · cases ha
  obtain ⟨errno, rfl, hne⟩ : ∃ errno, b = .accept (.error errno) ∧ errno ≠ .EAGAIN := by
    cases b with
    | accept r =>
      cases r with
      | error errno =>
        refine ⟨errno, rfl, ?_⟩
        rintro rfl
        cases ha
      | fd => cases ha
    | _ => cases ha
  have hresult : some (AcceptRet.error errno) ≠ some (.error .EAGAIN) := by
    simpa using hne
  -- the call ends at once, or after the batch it has is handed over
  obtain ⟨hin, hout | ⟨fd, fdBuff, ret, hpc⟩⟩ := (next_mainMove hreg hs).fromAccept
  · exact .inl ⟨_, mem_observe_returned.mpr (.inr ⟨hin, hout, rfl⟩), hresult⟩
  · exact .inr ⟨fd, fdBuff, ret, hpc, hresult⟩

/-- Without transient errors the listening socket is drained throughout, and in a run that does not
end inside `accept_readfun` it is drained only without them. -/
theorem drained_iff_no_transient {room : ℕ → ℕ} {backlog : ℕ} {tr : List (Listening × ListenAct)}
    {l : Listening} (h : Run (nextListening cfg) (.start cfg room backlog) tr l) :
    ((∀ p ∈ tr, p.2.transient = false) → Throughout (Drained cfg) tr l) ∧
      (l.server.main.accepting = false → Throughout (Drained cfg) tr l →
        ∀ p ∈ tr, p.2.transient = false) := by
  constructor
  · intro hquiet
    have hwatched : Throughout (Watched cfg) tr l :=
      h.throughout_of_steps (fun _ _ _ hs ha hstep => hs.step hstep ha) hquiet
        (start_watched room backlog)
    exact hwatched.mono fun _ hs => hs.drained
  · intro hout hdrained p hp
    by_contra ha
    have hundrained : Undrained l :=
      h.after_step (I := fun l => Registered cfg l.server)
        (fun _ _ _ hreg hstep => nextListening_registered hreg hstep)
        (fun _ _ _ hreg ha hstep => undrained_of_transient hreg ha hstep)
        (fun _ _ _ hreg hs hstep => hs.step hreg hstep) (setup_registered cfg room)
        ⟨p, hp, Bool.of_not_eq_false ha⟩
    rcases hundrained with ⟨r, hr, hne⟩ | ⟨fd, fdBuff, ret, hpc, -⟩
    · exact hne (hdrained.2.1 r hr)
    · rw [hpc] at hout
      cases hout

end Drain

section Bursts

/-- Two clients; one comes while main accepts, after `EAGAIN`. -/
def drainedActs : List ListenAct :=
  [.server (.epollWait [⟨3, .inEt⟩]), .server .mainStep, .server (.accept (.fd 6)),
    .server (.accept (.error .EAGAIN)), .arrive, .server .push, .server .mainStep,
    .server .mainStep]

def drainedListening : Listening :=
  (exec (nextListening twoCpus) (.start twoCpus (fun _ => 0) 1) drainedActs).get rfl

theorem drained_iff_no_transient_second_client :
    drainedListening.backlog = 1 ∧
      Throughout (Drained twoCpus)
        (trace (nextListening twoCpus) (.start twoCpus (fun _ => 0) 1) drainedActs)
        drainedListening :=
  ⟨rfl, (drained_iff_no_transient (.of_exec (Option.some_get _).symm)).1 (by decide)⟩

/-- The second of three clients has given up before it is accepted. -/
def abortedActs : List ListenAct :=
  [.server (.epollWait [⟨3, .inEt⟩]), .server .mainStep, .server (.accept (.fd 6)),
    .server (.accept (.error .ECONNABORTED)), .server .push, .server .mainStep, .server .mainStep]

def abortedListening : Listening :=
  (exec (nextListening twoCpus) (.start twoCpus (fun _ => 0) 3) abortedActs).get rfl

/-- The third client stays in the queue, and epoll does not report it. -/
theorem aborted_not_drained :
    ¬ ∀ (cfg : Config) (room : ℕ → ℕ) (backlog : ℕ) (tr : List (Listening × ListenAct))
      (l : Listening), Run (nextListening cfg) (.start cfg room backlog) tr l →
        Throughout (Drained cfg) tr l := by
  intro hall
  have hdrained := hall twoCpus (fun _ => 0) 3 _ abortedListening
    (.of_exec (Option.some_get _).symm)
  have hwaiting : ¬ abortedListening.server.main.WillAccept twoCpus := id
  rcases hdrained.2.2 hwaiting with hempty | hedge
  · cases hempty
  · cases hedge

end Bursts

end LinuxPrograms.C1000k
