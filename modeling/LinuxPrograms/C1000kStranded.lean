import LinuxPrograms.C1000kHandoff

/-! Bytes left over by a partial send. `fdsend_writefun` would send them, but main registers
`accept_readfun` in its place and subscribes the socketpair ends to `EPOLLIN` only, so nothing
sends them before `dispatch_conn` appends another batch to the same buffer. -/
namespace LinuxPrograms.C1000k
open Lib

/-- Bytes are pending for a socket that can take them, and `dispatch_conn` waits on an empty
list. -/
structure Stranded (cfg : Config) (s : Server) (i : ℕ) : Prop where
  worker : i ∈ cfg.workers
  pending : 0 < (s.sendfdBuff (cfg.peer i)).needSendLen
  writable : 0 < s.room (cfg.peer i)
  list : s.acceptedFDlist = []
  dispatch : s.dispatch = .wait

/-- Some callback of the main thread's event loop gets bytes into the socket. -/
def CallbackRetry (cfg : Config) (s : Server) (i : ℕ) : Prop :=
  ∃ tr s', Run (next cfg) s tr s' ∧ (∀ p ∈ tr, p.2.IsMain) ∧
    s'.written (cfg.peer i) ≠ s.written (cfg.peer i)

/-- The threads together get bytes into the socket before a further client connects. -/
def ClientFreeRetry (cfg : Config) (s : Server) (i : ℕ) : Prop :=
  ∃ tr s', Run (next cfg) s tr s' ∧ (∀ p ∈ tr, ∀ fd, p.2 ≠ .accept (.fd fd)) ∧
    s'.written (cfg.peer i) ≠ s.written (cfg.peer i)

/-- The main thread never writes to a worker's socket. -/
theorem mainRun_written {cfg : Config} {s s' : Server} {tr : List (Server × Act)}
    (hreg : Registered cfg s) (h : Run (next cfg) s tr s') (hmain : ∀ p ∈ tr, p.2.IsMain) :
    s'.written = s.written := by
  have hinv := h.invariant_of_labels (fun t => Registered cfg t ∧ t.written = s.written)
    Act.IsMain ?_ hmain ⟨hreg, rfl⟩
  · exact hinv.2
  · rintro t a t' ⟨hreg, hw⟩ ha hstep
    have he := next_effect hreg hstep
    refine ⟨he.registered hreg, ?_⟩
    cases he with
    | control | accepted | pushed => exact hw
    | detached | appended | sent | sendFailed | settled | drained => exact ha.elim

/-- With nothing accepted and nothing queued, only a new client makes anything be sent. -/
theorem quietRun_written {cfg : Config} {s s' : Server} {tr : List (Server × Act)}
    (hreg : Registered cfg s) (hbatch : s.main.batch = []) (hlist : s.acceptedFDlist = [])
    (hwait : s.dispatch = .wait) (h : Run (next cfg) s tr s')
    (hquiet : ∀ p ∈ tr, ∀ fd, p.2 ≠ .accept (.fd fd)) : s'.written = s.written := by
  have hinv := h.invariant_of_labels (fun t => Registered cfg t ∧ t.main.batch = [] ∧
      t.acceptedFDlist = [] ∧ t.dispatch = .wait ∧ t.written = s.written)
    (fun a => ∀ fd, a ≠ .accept (.fd fd)) ?_ hquiet ⟨hreg, hbatch, hlist, hwait, rfl⟩
  · exact hinv.2.2.2.2
  · rintro t a t' ⟨hreg, hbatch, hlist, hwait, hw⟩ ha hstep
    have he := next_effect hreg hstep
    have hreg' := he.registered hreg
    cases he with
    | control _ _ _ _ hb => exact ⟨hreg', hb.trans hbatch, hlist, hwait, hw⟩
    | accepted fd => exact (ha fd rfl).elim
    | pushed _ _ _ hne => exact (hne hbatch).elim
    | detached _ hl => exact (hl hlist).elim
    | appended _ _ hd => rw [hwait] at hd; cases hd
    | sent _ _ _ _ hd => rw [hwait] at hd; cases hd
    | sendFailed _ _ _ hd => rw [hwait] at hd; cases hd
    | settled _ _ hd => rw [hwait] at hd; cases hd
    | drained => exact ⟨hreg', hbatch, hlist, hwait, hw⟩

/-- In no reachable state do the event loop's callbacks send stranded bytes; and when
`accept_readfun` holds no batch either, no thread does until a further client connects. -/
theorem stranded_handoff_never_retried (cfg : Config) (room : ℕ → ℕ) (s : Server) (i : ℕ)
    (h : Reachable (next cfg) (setup cfg room) s) (hs : Stranded cfg s i) :
    ¬ CallbackRetry cfg s i ∧ (s.main.batch = [] → ¬ ClientFreeRetry cfg s i) := by
  have hreg := reachable_registered h
  constructor
  · rintro ⟨tr, s', hrun, hmain, hne⟩
    exact hne (congrFun (mainRun_written hreg hrun hmain) _)
  · rintro hbatch ⟨tr, s', hrun, hquiet, hne⟩
    exact hne (congrFun (quietRun_written hreg hbatch hs.list hs.dispatch hrun hquiet) _)

theorem shortSendServer_stranded : Stranded twoCpus shortSendServer 1 :=
  ⟨by decide, by decide, by decide, rfl, rfl⟩

theorem stranded_handoff_never_retried_one_client :
    ¬ CallbackRetry twoCpus shortSendServer 1 ∧
      (shortSendServer.main.batch = [] → ¬ ClientFreeRetry twoCpus shortSendServer 1) :=
  stranded_handoff_never_retried twoCpus (fun _ => 2) shortSendServer 1 shortSendServer_reachable
    shortSendServer_stranded

/-- After one client and one short send the bytes stay where they are. -/
theorem stranded_handoff_not_always_retried :
    ¬ ∀ (cfg : Config) (room : ℕ → ℕ) (s : Server) (i : ℕ),
      Reachable (next cfg) (setup cfg room) s → Stranded cfg s i →
        CallbackRetry cfg s i ∨ ClientFreeRetry cfg s i := by
  intro hall
  have hreg := reachable_registered shortSendServer_reachable
  rcases hall twoCpus _ shortSendServer 1 shortSendServer_reachable shortSendServer_stranded with
    ⟨tr, s', hrun, hmain, hne⟩ | ⟨tr, s', hrun, hquiet, hne⟩
  · exact hne (congrFun (mainRun_written hreg hrun hmain) _)
  · exact hne (congrFun (quietRun_written hreg rfl rfl rfl hrun hquiet) _)

end LinuxPrograms.C1000k
