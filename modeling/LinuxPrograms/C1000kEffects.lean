import LinuxPrograms.C1000kListenfd

/-! What one step of the accepting side can do. Main's registrations never change, so the main
thread only ever runs `accept_readfun`, and every step has one of the effects listed here. -/
namespace LinuxPrograms.C1000k
open Lib

/-- An event epoll can report to the main thread. -/
def EventOk (cfg : Config) (ev : Event) : Prop :=
  (ev.fd = cfg.listenfd ∨ ev.fd ∈ cfg.channels.map cfg.peer) ∧
    ev.events.epollout = false ∧ ev.events.epollrdhup = false

def PointOk (cfg : Config) (p : Point) : Prop := ∀ ev ∈ p.ev :: p.evs, EventOk cfg ev

/-- A batch of `accept_readfun`: descriptors it may hand over, at most `MAXACCEPTSIZE`. -/
def BatchOk (fdBuff : List ℕ) : Prop :=
  fdBuff.length ≤ maxAcceptSize ∧ ∀ fd ∈ fdBuff, 0 < fd ∧ fd < maxFd

def MainPc.Ok (cfg : Config) : MainPc → Prop
  | .wait => True
  | .handling p => PointOk cfg p
  | .accept _ fdBuff ret => PointOk cfg ret ∧ BatchOk fdBuff ∧ fdBuff.length < maxAcceptSize
  | .push _ fdBuff _ ret => PointOk cfg ret ∧ BatchOk fdBuff ∧ fdBuff ≠ []
  | .send _ _ => False

/-- The descriptors in `accept_readfun`'s local batch. -/
def MainPc.batch : MainPc → List ℕ
  | .accept _ fdBuff _ => fdBuff
  | .push _ fdBuff _ _ => fdBuff
  | _ => []

/-- The nodes `dispatch_conn` has detached and not yet appended to a buffer. -/
def DispatchPc.nodes : DispatchPc → List AcceptedFD
  | .wait => []
  | .work paccept => paccept
  | .send _ rest => rest

/-- Main's registrations stand as it made them. -/
structure Registered (cfg : Config) (s : Server) : Prop where
  items : s.gFDITEM = setupItem cfg
  epoll : s.mainEpoll =
    (cfg.listenfd, .inEt) :: cfg.channels.map (fun i => (cfg.peer i, .inEt))
  main : s.main.Ok cfg

theorem setup_registered (cfg : Config) (room : ℕ → ℕ) : Registered cfg (setup cfg room) :=
  ⟨rfl, rfl, trivial⟩

/-- The effects of a step, by the data they touch. -/
inductive Effect (cfg : Config) (s : Server) : Act → Server → Prop
  | control (a : Act) (pc : MainPc) (ha : a.IsMain) (hok : pc.Ok cfg)
      (hb : pc.batch = s.main.batch) : Effect cfg s a { s with main := pc }
  | accepted (fd : ℕ) (pc : MainPc) (hok : pc.Ok cfg) (hfd : 0 < fd ∧ fd < maxFd)
      (hb : pc.batch = s.main.batch ++ [fd]) :
      Effect cfg s (.accept (.fd fd)) { s with main := pc, accepted := s.accepted ++ [fd] }
  | pushed (pc : MainPc) (hok : pc.Ok cfg) (hold : BatchOk s.main.batch) (hne : s.main.batch ≠ [])
      (hb : pc.batch = []) :
      Effect cfg s .push { s with
        main := pc
        acceptedFDlist := AcceptedFD.ofBatch s.main.batch :: s.acceptedFDlist }
  | detached (hd : s.dispatch = .wait) (hl : s.acceptedFDlist ≠ []) :
      Effect cfg s .detach { s with acceptedFDlist := [], dispatch := .work s.acceptedFDlist }
  | appended (node : AcceptedFD) (rest : List AcceptedFD) (hd : s.dispatch = .work (node :: rest))
      (hc : cfg.channel s.sum ∈ cfg.channels)
      (hfit : (s.sendfdBuff (cfg.peer (cfg.channel s.sum))).Fits node) :
      Effect cfg s .append { s with
        sendfdBuff := Function.update s.sendfdBuff (cfg.peer (cfg.channel s.sum))
          ((s.sendfdBuff (cfg.peer (cfg.channel s.sum))).append node hfit)
        assigned := Function.update s.assigned (cfg.channel s.sum)
          (s.assigned (cfg.channel s.sum) ++ [node])
        dispatch := .send ⟨cfg.peer (cfg.channel s.sum),
          (s.sendfdBuff (cfg.peer (cfg.channel s.sum))).needSendLen+node.acceptedFdLen, 0, false⟩
          rest }
  | sent (f : SendFrame) (rest : List AcceptedFD) (count : ℤ) (room : ℕ → ℕ)
      (hd : s.dispatch = .send f rest) (h0 : 0 < count) (hle : count ≤ f.needSend-f.sended) :
      Effect cfg s (.send count) { s with
        written := Function.update s.written f.fd
          (s.written f.fd ++ (s.sendfdBuff f.fd).slice f.sended (f.sended+count))
        room := room
        dispatch := .send { f with sended := f.sended+count } rest }
  | sendFailed (f : SendFrame) (rest : List AcceptedFD) (count : ℤ)
      (hd : s.dispatch = .send f rest) :
      Effect cfg s (.send count) { s with dispatch := .send { f with broke := true } rest }
  | settled (f : SendFrame) (rest : List AcceptedFD) (hd : s.dispatch = .send f rest) :
      Effect cfg s .settle { s with
        sendfdBuff := Function.update s.sendfdBuff f.fd
          ((s.sendfdBuff f.fd).settle f.needSend f.sended)
        sum := s.sum+1
        dispatch := .loop rest }
  | drained (fd bytes : ℕ) (room : ℕ → ℕ) : Effect cfg s (.drain fd bytes) { s with room := room }

theorem scan_ok (cfg : Config) (evs : List Event) (h : ∀ ev ∈ evs, EventOk cfg ev) :
    (MainPc.scan evs).Ok cfg ∧ (MainPc.scan evs).batch = [] := by
  cases evs with
  | nil => exact ⟨trivial, rfl⟩
  | cons ev evs => exact ⟨h, rfl⟩

theorem channel_mem (cfg : Config) (sum : ℕ) (h : 1 < cfg.cpuNum) :
    cfg.channel sum ∈ cfg.channels := by
  have hlt := Nat.mod_lt sum (show 0 < cfg.cpuNum-1 by omega)
  rw [Config.mem_channels, Config.channel]
  omega

/-- What epoll reports to the main thread carries no `EPOLLOUT` and no `EPOLLRDHUP`. -/
theorem reported_ok {cfg : Config} {s : Server} (hreg : Registered cfg s) {evs : List Event}
    (h : ∀ ev ∈ evs, ∃ r ∈ s.mainEpoll, r.1 = ev.fd ∧ r.2.Reportable ev.events) :
    ∀ ev ∈ evs, EventOk cfg ev := by
  intro ev hev
  obtain ⟨r, hr, hfd, hin, hout, hrd⟩ := h ev hev
  rw [hreg.epoll, List.mem_cons, List.mem_map] at hr
  -- every registration is `EPOLLIN | EPOLLET`
  have hsub : r.2 = .inEt := by
    rcases hr with rfl | ⟨i, _, rfl⟩ <;> rfl
  rw [hsub] at hout hrd
  have hsock : ev.fd = cfg.listenfd ∨ ev.fd ∈ cfg.channels.map cfg.peer := by
    rcases hr with rfl | ⟨i, hi, rfl⟩
    · exact Or.inl hfd.symm
    · exact Or.inr (List.mem_map.mpr ⟨i, hi, hfd⟩)
  refine ⟨hsock, ?_, ?_⟩
  · exact Bool.eq_false_iff.mpr fun h => absurd (hout h) (by decide)
  · exact Bool.eq_false_iff.mpr fun h => absurd (hrd h) (by decide)

/-- `accept_readfun` is the only read callback of main's table. -/
theorem setupItem_readfun (cfg : Config) (fd : ℕ) (cb : Callback) :
    (setupItem cfg fd).mReadfun = some cb ↔ fd = cfg.listenfd ∧ cb = .acceptReadfun := by
  unfold setupItem
  by_cases hfd : fd = cfg.listenfd
  · rw [if_pos hfd]
    exact ⟨fun h => ⟨hfd, (Option.some.inj h).symm⟩, fun h => by rw [h.2]⟩
  · rw [if_neg hfd]
    refine ⟨fun h => ?_, fun h => absurd h.1 hfd⟩
    split at h <;> cases h

theorem setupItem_activeclose (cfg : Config) (fd : ℕ) :
    (setupItem cfg fd).mActiveclose = false := by
  unfold setupItem
  split
  · rfl
  · split <;> rfl

/-- epoll reports that a connection waits at the listening socket. -/
def ReportsListener (cfg : Config) (ev : Event) : Prop :=
  ev.fd = cfg.listenfd ∧ ev.events.epollin = true

/-- A test of `process_one_event` on the main thread: `accept_readfun` is called exactly for the
listening socket. -/
theorem mainStep_cases {cfg : Config} {s s' : Server} (hreg : Registered cfg s) {p : Point}
    (hp : s.main = .handling p) (h : mainStep s p = some s') :
    (p.stage = .read ∧ ReportsListener cfg p.ev ∧
      s' = { s with main := .accept p.ev.fd [] { p with stage := .write } }) ∨
    (p.stage = .read ∧ ¬ ReportsListener cfg p.ev ∧
      s' = { s with main := .handling { p with stage := .write } }) ∨
    (p.stage = .write ∧ s' = { s with main := .handling { p with stage := .hangup } }) ∨
    (p.stage = .hangup ∧ s' = { s with main := .scan p.evs }) := by
  have hpok : PointOk cfg p := by
    have hm := hreg.main
    rwa [hp] at hm
  have hev := hpok p.ev List.mem_cons_self
  have hactive : (s.gFDITEM p.ev.fd).mActiveclose = false := by
    rw [hreg.items]
    exact setupItem_activeclose cfg _
  unfold mainStep at h
  cases hst : p.stage with
  | read =>
    simp only [hst, hactive, true_and] at h
    -- with `EPOLLIN` the read callback is called if there is one
    split at h
    · rename_i hin
      split at h
      · rename_i cb hcb
        rw [hreg.items] at hcb
        obtain ⟨hfd, rfl⟩ := (setupItem_readfun cfg _ _).mp hcb
        exact .inl ⟨rfl, ⟨hfd, hin⟩, (Option.some.inj h).symm⟩
      · rename_i hcb
        rw [hreg.items] at hcb
        refine .inr (.inl ⟨rfl, fun hl => ?_, (Option.some.inj h).symm⟩)
        rw [(setupItem_readfun cfg _ _).mpr ⟨hl.1, rfl⟩] at hcb
        cases hcb
    · rename_i hin
      exact .inr (.inl ⟨rfl, fun hl => hin hl.2, (Option.some.inj h).symm⟩)
  | write =>
    -- `EPOLLOUT` is not subscribed to, so no write callback is ever called
    simp only [hst, hev.2.1, Bool.false_eq_true, and_false, if_false, Option.some.injEq] at h
    exact .inr (.inr (.inl ⟨rfl, h.symm⟩))
  | hangup =>
    simp only [hst, hactive, hev.2.2, Bool.false_eq_true, or_self, if_false,
      Option.some.injEq] at h
    exact .inr (.inr (.inr ⟨rfl, h.symm⟩))

/-- A test of `process_one_event` on the main thread only moves on, or enters `accept_readfun`. -/
theorem mainStep_effect {cfg : Config} {s s' : Server} (hreg : Registered cfg s) {p : Point}
    (hp : s.main = .handling p) (h : mainStep s p = some s') :
    ∃ pc, pc.Ok cfg ∧ pc.batch = [] ∧ s' = { s with main := pc } := by
  have hpok : PointOk cfg p := by
    have hm := hreg.main
    rwa [hp] at hm
  have hnext (stage : Stage) : (MainPc.handling { p with stage := stage }).Ok cfg := hpok
  obtain ⟨-, -, rfl⟩ | ⟨-, -, rfl⟩ | ⟨-, rfl⟩ | ⟨-, rfl⟩ := mainStep_cases hreg hp h
  · have hempty : BatchOk [] := ⟨Nat.zero_le _, fun fd hfd => nomatch hfd⟩
    exact ⟨.accept p.ev.fd [] { p with stage := .write }, ⟨hnext _, hempty, by decide⟩, rfl, rfl⟩
  · exact ⟨_, hnext .write, rfl, rfl⟩
  · exact ⟨_, hnext .hangup, rfl, rfl⟩
  · obtain ⟨hok, hb⟩ := scan_ok cfg p.evs fun ev hev => hpok ev (List.mem_cons_of_mem _ hev)
    exact ⟨_, hok, hb, rfl⟩

theorem BatchOk.append {fdBuff : List ℕ} (h : BatchOk fdBuff) (hlt : fdBuff.length < maxAcceptSize)
    {n : ℕ} (hn : 0 < n ∧ n < maxFd) : BatchOk (fdBuff ++ [n]) := by
  constructor
  · rw [List.length_append, List.length_singleton]
    omega
  · intro fd hfd
    rcases List.mem_append.mp hfd with hfd | hfd
    · exact h.2 fd hfd
    · rw [List.mem_singleton.mp hfd]
      exact hn

/-- One round of `accept_readfun`. -/
theorem acceptStep_effect {cfg : Config} {s s' : Server} (hreg : Registered cfg s) {fd : ℕ}
    {fdBuff : List ℕ} {ret : Point} (hpc : s.main = .accept fd fdBuff ret) {r : AcceptRet}
    (h : acceptStep s fd fdBuff ret r = some s') : Effect cfg s (.accept r) s' := by
  have hm := hreg.main
  rw [hpc] at hm
  obtain ⟨hret, hold, hlt⟩ := hm
  have hb : s.main.batch = fdBuff := by rw [hpc]; rfl
  cases r with
  | fd n =>
    simp only [acceptStep] at h
    split at h
    · cases h
    · split at h
      · cases h
        rw [show s = { s with main := s.main } from rfl]
        exact .control _ _ trivial hreg.main rfl
      · rename_i hn0 hnmax
        cases h
        have hn : 0 < n ∧ n < maxFd := by omega
        have hbatch : BatchOk (fdBuff ++ [n]) := hold.append hlt hn
        by_cases hfull : (fdBuff ++ [n]).length < maxAcceptSize
        · rw [if_pos hfull]
          refine .accepted n _ ⟨hret, hbatch, hfull⟩ hn ?_
          rw [hb]
          rfl
        · rw [if_neg hfull]
          refine .accepted n _ ⟨hret, hbatch, by simp⟩ hn ?_
          rw [hb]
          rfl
  | error errno =>
    -- all transient errors take the same branch
    have hs' : s' = { s with
        main := if fdBuff = [] then .handling ret else .push fd fdBuff false ret } := by
      cases errno <;> first | exact (Option.some.inj h).symm | cases h
    rw [hs']
    by_cases he : fdBuff = []
    · rw [if_pos he]
      refine .control _ _ trivial hret ?_
      rw [hb, he]
      rfl
    · rw [if_neg he]
      refine .control _ _ trivial ⟨hret, hold, he⟩ ?_
      rw [hb]
      rfl

theorem sendStep_effect {cfg : Config} {s : Server} {f : SendFrame} {rest : List AcceptedFD}
    (hd : s.dispatch = .send f rest) {count : ℤ} {r : Server × SendFrame}
    (h : sendStep s f count = some r) :
    Effect cfg s (.send count) { r.1 with dispatch := .send r.2 rest } := by
  unfold sendStep at h
  split at h
  · rename_i hc
    split at h
    · rename_i hpos
      cases h
      exact .sent f rest count _ hd hpos hc.2.1
    · cases h
      exact .sendFailed f rest count hd
  · cases h

theorem settleStep_effect {cfg : Config} {s s' : Server} {f : SendFrame} {rest : List AcceptedFD}
    (hd : s.dispatch = .send f rest) (h : settleStep s f = some s') :
    Effect cfg s .settle { s' with sum := s'.sum+1, dispatch := .loop rest } := by
  unfold settleStep at h
  split at h
  · cases h
  · cases h
    exact .settled f rest hd

/-- The critical section takes over the whole local batch. -/
theorem pushStep_effect {cfg : Config} {s : Server} (hreg : Registered cfg s) {fd : ℕ}
    {fdBuff : List ℕ} {again : Bool} {ret : Point} (hpc : s.main = .push fd fdBuff again ret) :
    Effect cfg s .push (pushStep s fd fdBuff again ret) := by
  have hm := hreg.main
  rw [hpc] at hm
  obtain ⟨hret, hbatch, hne⟩ := hm
  have hb : s.main.batch = fdBuff := by rw [hpc]; rfl
  unfold pushStep
  rw [← hb] at hbatch hne ⊢
  apply Effect.pushed _ _ hbatch hne
  · cases again <;> rfl
  · cases again
    · exact hret
    · exact ⟨hret, ⟨Nat.zero_le _, by simp⟩, by decide⟩

theorem appendStep_effect {cfg : Config} {s s' : Server} {node : AcceptedFD}
    {rest : List AcceptedFD} (hd : s.dispatch = .work (node :: rest))
    (h : appendStep cfg s node rest = some s') : Effect cfg s .append s' := by
  unfold appendStep at h
  dsimp only at h
  split at h
  · rename_i hc
    cases h
    exact .appended node rest hd (channel_mem cfg s.sum hc.1.1) hc.2
  · cases h

/-- The main thread's steps: it takes the reports, makes a test of `process_one_event`, or goes on
inside `accept_readfun`. -/
theorem next_isMain {cfg : Config} {s s' : Server} {a : Act} (hreg : Registered cfg s)
    (ha : a.IsMain) (h : next cfg s a = some s') :
    (∃ evs, a = .epollWait evs ∧ s.main = .wait ∧
      (∀ ev ∈ evs, ∃ r ∈ s.mainEpoll, r.1 = ev.fd ∧ r.2.Reportable ev.events) ∧
      s' = { s with main := .scan evs }) ∨
    (∃ p, a = .mainStep ∧ s.main = .handling p ∧ mainStep s p = some s') ∨
    (∃ r fd fdBuff ret, a = .accept r ∧ s.main = .accept fd fdBuff ret ∧
      acceptStep s fd fdBuff ret r = some s') ∨
    (∃ fd fdBuff again ret, a = .push ∧ s.main = .push fd fdBuff again ret ∧
      s' = pushStep s fd fdBuff again ret) := by
  -- the write callback of main's table is never called
  have hsend : ∀ f ret, s.main ≠ .send f ret := by
    intro f ret hpc
    have hm := hreg.main
    rw [hpc] at hm
    exact hm
  cases a with
  | epollWait evs =>
    simp only [next] at h
    split at h
    · rename_i hpc
      split at h
      · rename_i hevs
        exact .inl ⟨evs, rfl, hpc, hevs, (Option.some.inj h).symm⟩
      · cases h
    · cases h
  | mainStep =>
    simp only [next] at h
    split at h
    · rename_i p hpc
      exact .inr (.inl ⟨p, rfl, hpc, h⟩)
    · cases h
  | accept r =>
    simp only [next] at h
    split at h
    · rename_i fd fdBuff ret hpc
      exact .inr (.inr (.inl ⟨r, fd, fdBuff, ret, rfl, hpc, h⟩))
    · cases h
  | push =>
    simp only [next] at h
    split at h
    · rename_i fd fdBuff again ret hpc
      exact .inr (.inr (.inr ⟨fd, fdBuff, again, ret, rfl, hpc, (Option.some.inj h).symm⟩))
    · cases h
  | mainSend count =>
    unfold next at h
    dsimp only at h
    split at h
    · rename_i hpc
      exact absurd hpc (hsend _ _)
    · cases h
  | mainSettle =>
    unfold next at h
    dsimp only at h
    split at h
    · rename_i hpc
      exact absurd hpc (hsend _ _)
    · cases h
  | _ => exact ha.elim

/-- Every step has one of the listed effects. -/
theorem next_effect {cfg : Config} {s s' : Server} {a : Act} (hreg : Registered cfg s)
    (h : next cfg s a = some s') : Effect cfg s a s' := by
  by_cases ha : a.IsMain
  · obtain ⟨evs, rfl, hpc, hevs, rfl⟩ | ⟨p, rfl, hpc, hs⟩ | ⟨r, fd, fdBuff, ret, rfl, hpc, hs⟩ |
      ⟨fd, fdBuff, again, ret, rfl, hpc, rfl⟩ := next_isMain hreg ha h
    · obtain ⟨hok, hb⟩ := scan_ok cfg evs (reported_ok hreg hevs)
      refine .control _ _ trivial hok ?_
      rw [hb, hpc]
      rfl
    · obtain ⟨pc, hok, hb, rfl⟩ := mainStep_effect hreg hpc hs
      refine .control _ _ trivial hok ?_
      rw [hb, hpc]
      rfl
    · exact acceptStep_effect hreg hpc hs
    · exact pushStep_effect hreg hpc
  · cases a with
    | detach =>
      simp only [next] at h
      split at h
      · rename_i node rest hd hl
        cases h
        rw [← hl]
        exact .detached hd (by rw [hl]; exact List.cons_ne_nil _ _)
      · cases h
    | append =>
      simp only [next] at h
      split at h
      · rename_i node rest hd
        exact appendStep_effect hd h
      · cases h
    | send count =>
      simp only [next] at h
      split at h
      · rename_i f rest hd
        obtain ⟨r, hr, rfl⟩ := Option.map_eq_some_iff.mp h
        exact sendStep_effect hd hr
      · cases h
    | settle =>
      simp only [next] at h
      split at h
      · rename_i f rest hd
        obtain ⟨t, ht, rfl⟩ := Option.map_eq_some_iff.mp h
        exact settleStep_effect hd ht
      · cases h
    | drain fd bytes =>
      cases h
      exact .drained fd bytes _
    | _ => exact absurd trivial ha

theorem Effect.registered {cfg : Config} {s s' : Server} {a : Act} (h : Effect cfg s a s')
    (hreg : Registered cfg s) : Registered cfg s' := by
  cases h with
  | control _ _ _ hok => exact ⟨hreg.items, hreg.epoll, hok⟩
  | accepted _ _ hok => exact ⟨hreg.items, hreg.epoll, hok⟩
  | pushed _ hok => exact ⟨hreg.items, hreg.epoll, hok⟩
  | _ => exact ⟨hreg.items, hreg.epoll, hreg.main⟩

theorem reachable_registered {cfg : Config} {room : ℕ → ℕ} {s : Server}
    (h : Reachable (next cfg) (setup cfg room) s) : Registered cfg s :=
  h.invariant (fun _ _ _ hs hstep => (next_effect hs hstep).registered hs)
    (setup_registered cfg room)

end LinuxPrograms.C1000k
