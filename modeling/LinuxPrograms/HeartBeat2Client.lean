import LinuxPrograms.LibRuns
import Mathlib.Data.List.Basic
import Mathlib.Logic.Function.Basic

/-! The client of heartBeat2 (hb_client.c): data come on `sdata`, heartbeats on `chb`, and one
`select` loop reads both. Its data branch reads from `chb`: whatever it processes are heartbeat
bytes. -/
namespace LinuxPrograms.HeartBeat2
open Lib

/-- `T1`: idle time before a heartbeat. -/
def t1 : ℕ := 60

/-- `T2`: time to wait for the response. -/
def t2 : ℕ := 10

/-- The two sockets. -/
inductive Sock
  | sdata
  | chb
  deriving DecidableEq

/-- Where `main` stands: in `select`, or in one of the two `recv`s. In the first of them `sdataSet`
is `FD_ISSET(sdata, &readfd)`. -/
inductive Pc
  | select
  | recvHb (sdataSet : Bool)
  | recvData
  deriving DecidableEq

/-- `main`, the bytes that have arrived on each socket and were not read, and all that have arrived.
`processed` is what the data branch was given, with the socket each byte was read from; `fromData`
counts the bytes that the iteration has read from `sdata`, and `rounds` keeps for each iteration
that ended whether `sdata` was readable, and that count. -/
structure State where
  pc : Pc
  tv : ℕ
  heartbeats : ℕ
  unread : Sock → List UInt8
  sent : Sock → List UInt8
  processed : List (Sock × UInt8)
  fromData : ℕ
  rounds : List (Bool × ℕ)

/-- What happens next: bytes arrive; `select` times out, or reports a set of sockets; the `recv`
that `main` is in returns, with `n` bytes at most. -/
inductive Label
  | arrive (s : Sock) (bytes : List UInt8)
  | timeout
  | ready (chbSet sdataSet : Bool)
  | recv (n : ℕ)

/-- `recv(s, buf, count, 0)`: at least one byte, at most `n` of them. It waits while there is
none. -/
def recv (s : Sock) (count n : ℕ) (st : State) : Option (List UInt8 × State) :=
  let bytes := (st.unread s).take (min n count)
  if bytes.length = 0 then none
  else some (bytes, { st with
    unread := Function.update st.unread s ((st.unread s).drop bytes.length)
    fromData := if s = .sdata then st.fromData+bytes.length else st.fromData })

/-- The end of an iteration, and the next `select`. -/
def again (sdataSet : Bool) (st : State) : State :=
  { st with
    pc := .select, heartbeats := 0, tv := t1, rounds := st.rounds ++ [(sdataSet, st.fromData)] }

/-- One step; `none` when it is not possible, or when `main` ends. -/
def next (st : State) : Label → Option State
  | .arrive s bytes => some { st with
      unread := Function.update st.unread s (st.unread s ++ bytes)
      sent := Function.update st.sent s (st.sent s ++ bytes) }
  | .timeout =>
    match st.pc with
    | .select =>
      if st.heartbeats+1 > 3 then none
      else some { st with heartbeats := st.heartbeats+1, tv := t2 }
    | _ => none
  | .ready chbSet sdataSet =>
    match st.pc with
    | .select =>
      -- a set `select` can report: not empty, and only of sockets with something to read
      if (chbSet || sdataSet) && (!chbSet || st.unread .chb ≠ []) &&
          (!sdataSet || st.unread .sdata ≠ []) then
        some { st with pc := if chbSet then .recvHb sdataSet else .recvData, fromData := 0 }
      else none
    | _ => none
  | .recv n =>
    match st.pc with
    | .select => none
    | .recvHb sdataSet =>
      (recv .chb 1 n st).map fun r =>
        if sdataSet then { r.2 with pc := .recvData } else again false r.2
    | .recvData =>
      -- `msg` is filled from `chb`
      (recv .chb 1024 n st).map fun r =>
        again true { r.2 with processed := r.2.processed ++ r.1.map fun b => (.chb, b) }

/-- The first `select`. -/
def start : State where
  pc := .select
  tv := t1
  heartbeats := 0
  unread := fun _ => []
  sent := fun _ => []
  processed := []
  fromData := 0
  rounds := []

/-- The iteration that is running has found `sdata` readable. -/
def State.FoundData (st : State) : Prop := st.pc = .recvHb true ∨ st.pc = .recvData

/-- The iteration that is running can still end, and will then have read from `sdata`. -/
def CanRead (st : State) : Prop :=
  ∃ tr st' n, Run next st tr st' ∧ st'.rounds = st.rounds ++ [(true, n)] ∧ 0 < n

/-- The channels are kept apart: what was processed is a prefix of what was sent on `sdata`, none of
it was read from `chb`, and each iteration that found `sdata` readable has read from it, or can
still do so. -/
structure Apart (st : State) : Prop where
  in_order : st.processed.map Prod.snd <+: st.sent .sdata
  data_only : ∀ b ∈ st.processed, b.1 = .sdata
  progress : ∀ r ∈ st.rounds, r.1 = true → 0 < r.2
  running : st.FoundData → CanRead st

/-! What a step can do. Both `recv`s read from `chb`. -/

inductive ClientStep (st : State) : Label → State → Prop
  | arrive {s : Sock} {bytes : List UInt8} (unread sent : Sock → List UInt8) :
      ClientStep st (.arrive s bytes) { st with unread, sent }
  | timeout (heartbeats tv : ℕ) : ClientStep st .timeout { st with heartbeats, tv }
  | readyHb (sdataSet : Bool) :
      ClientStep st (.ready true sdataSet) { st with pc := .recvHb sdataSet, fromData := 0 }
  | readyData : ClientStep st (.ready false true) { st with pc := .recvData, fromData := 0 }
  | recvHb {n : ℕ} (unread : Sock → List UInt8) (hpc : st.pc = .recvHb false) :
      ClientStep st (.recv n) (again false { st with unread })
  | recvBoth {n : ℕ} (unread : Sock → List UInt8) (hpc : st.pc = .recvHb true) :
      ClientStep st (.recv n) { st with unread, pc := .recvData }
  | recvData {n : ℕ} (unread : Sock → List UInt8) (processed : List (Sock × UInt8))
      (hpc : st.pc = .recvData) : ClientStep st (.recv n) (again true { st with unread, processed })

/-- A `recv` on `chb` that returns has changed what is unread only. -/
theorem recv_chb {count n : ℕ} {st : State} {r : List UInt8 × State}
    (h : recv .chb count n st = some r) : ∃ unread, r.2 = { st with unread } := by
  unfold recv at h
  dsimp only at h
  split at h
  · cases h
  · obtain rfl := Option.some.inj h
    exact ⟨_, rfl⟩

theorem next_clientStep {st st' : State} {a : Label} (h : next st a = some st') :
    ClientStep st a st' := by
  cases a with
  | arrive s bytes =>
    obtain rfl := Option.some.inj h
    exact .arrive _ _
  | timeout =>
    cases hpc : st.pc <;> simp only [next, hpc] at h
    · split at h
      -- the connection is taken for dead
      · cases h
      · obtain rfl := Option.some.inj h
        rw [← hpc]
        exact .timeout _ _
    · cases h
    · cases h
  | ready chbSet sdataSet =>
    cases hpc : st.pc <;> simp only [next, hpc] at h
    · split at h
      · next hset =>
        obtain rfl := Option.some.inj h
        cases chbSet with
        | true => exact .readyHb sdataSet
        | false =>
          cases sdataSet with
          | true => exact .readyData
          | false => cases hset
      · cases h
    · cases h
    · cases h
  | recv n =>
    cases hpc : st.pc with
    | select =>
      simp only [next, hpc] at h
      cases h
    | recvHb sdataSet =>
      simp only [next, hpc] at h
      obtain ⟨r, hr, rfl⟩ := Option.map_eq_some_iff.mp h
      obtain ⟨unread, hst⟩ := recv_chb hr
      rw [hst]
      cases sdataSet with
      | false => exact .recvHb unread hpc
      | true => exact .recvBoth unread hpc
    | recvData =>
      simp only [next, hpc] at h
      obtain ⟨r, hr, rfl⟩ := Option.map_eq_some_iff.mp h
      obtain ⟨unread, hst⟩ := recv_chb hr
      rw [hst]
      exact .recvData unread _ hpc

/-- Nothing was read from `sdata`, in this iteration or before. -/
structure NothingRead (st : State) : Prop where
  fromData : st.fromData = 0
  rounds : ∀ r ∈ st.rounds, r.2 = 0

theorem NothingRead.again {st : State} (h : NothingRead st) (sdataSet : Bool) :
    NothingRead (again sdataSet st) where
  fromData := h.fromData
  rounds := by
    intro r hr
    rcases List.mem_append.mp hr with hr | hr
    · exact h.rounds r hr
    · rw [List.mem_singleton.mp hr]
      exact h.fromData

theorem ClientStep.nothingRead {st st' : State} {a : Label} (h : ClientStep st a st')
    (hs : NothingRead st) : NothingRead st' := by
  cases h with
  | arrive => exact ⟨hs.fromData, hs.rounds⟩
  | timeout => exact ⟨hs.fromData, hs.rounds⟩
  | readyHb => exact ⟨rfl, hs.rounds⟩
  | readyData => exact ⟨rfl, hs.rounds⟩
  | recvHb unread =>
    have hbefore : NothingRead { st with unread } := ⟨hs.fromData, hs.rounds⟩
    exact hbefore.again false
  | recvBoth => exact ⟨hs.fromData, hs.rounds⟩
  | recvData unread processed =>
    have hbefore : NothingRead { st with unread, processed } := ⟨hs.fromData, hs.rounds⟩
    exact hbefore.again true

/-- So an iteration that finds `sdata` readable never reads from it. -/
theorem NothingRead.not_canRead {st : State} (h : NothingRead st) : ¬ CanRead st := by
  rintro ⟨tr, st', n, hrun, hrounds, hpos⟩
  have hend : NothingRead st' :=
    Reachable.invariant (fun _ _ _ hs hstep => (next_clientStep hstep).nothingRead hs) ⟨tr, hrun⟩ h
  have hn : n = 0 := hend.rounds (true, n) (hrounds ▸ List.mem_append_right _
    (List.mem_singleton_self _))
  omega

/-- No iteration has found `sdata` readable. -/
structure NoData (st : State) : Prop extends NothingRead st where
  idle : ¬ st.FoundData
  nothing : st.processed = []
  unset : ∀ r ∈ st.rounds, r.1 = false

theorem NoData.apart {st : State} (h : NoData st) : Apart st where
  in_order := by
    rw [h.nothing]
    exact List.nil_prefix
  data_only := by
    rw [h.nothing]
    exact fun _ hb => absurd hb List.not_mem_nil
  progress := by
    intro r hr hset
    rw [h.unset r hr] at hset
    cases hset
  running := fun hfound => absurd hfound h.idle

theorem ClientStep.noData {st st' : State} {a : Label} (h : ClientStep st a st') (hs : NoData st)
    (ha : ∀ chbSet, a ≠ .ready chbSet true) : NoData st' := by
  have hread := h.nothingRead hs.toNothingRead
  cases h with
  | arrive => exact ⟨hread, hs.idle, hs.nothing, hs.unset⟩
  | timeout => exact ⟨hread, hs.idle, hs.nothing, hs.unset⟩
  | readyHb sdataSet =>
    cases sdataSet with
    | true => exact absurd rfl (ha true)
    | false =>
      refine ⟨hread, ?_, hs.nothing, hs.unset⟩
      rintro (hpc | hpc) <;> cases hpc
  | readyData => exact absurd rfl (ha false)
  | recvHb =>
    refine ⟨hread, ?_, hs.nothing, ?_⟩
    · rintro (hpc | hpc) <;> cases hpc
    · intro r hr
      rcases List.mem_append.mp hr with hr | hr
      · exact hs.unset r hr
      · rw [List.mem_singleton.mp hr]
  | recvBoth _ hpc => exact absurd (.inl hpc) hs.idle
  | recvData _ _ hpc => exact absurd (.inr hpc) hs.idle

/-- Once `select` reports `sdata`, the iteration hangs or ends without a byte of it. -/
theorem ClientStep.not_apart {st st' : State} {chbSet : Bool}
    (h : ClientStep st (.ready chbSet true) st') (hs : NothingRead st) : ¬ Apart st' := by
  intro hapart
  refine (h.nothingRead hs).not_canRead (hapart.running ?_)
  cases h with
  | readyHb => exact .inl rfl
  | readyData => exact .inr rfl

theorem noData_start : NoData start where
  fromData := rfl
  rounds := fun _ hr => absurd hr List.not_mem_nil
  idle := by rintro (hpc | hpc) <;> cases hpc
  nothing := rfl
  unset := fun _ hr => absurd hr List.not_mem_nil

/-- The channels are kept apart throughout a run exactly when `select` never reports `sdata`. -/
theorem apart_iff (tr : List (State × Label)) (st : State) (h : Run next start tr st) :
    Throughout Apart tr st ↔ ∀ p ∈ tr, ∀ chbSet, p.2 ≠ .ready chbSet true := by
  refine h.throughout_iff_of_stronger (Q := NoData) (D := fun _ _ => True)
    (fun _ a => ∀ chbSet, a ≠ .ready chbSet true) (fun _ => NoData.apart) ?_ ?_
    (fun _ _ => trivial) noData_start
  · rintro s a s' hs - hstep hapart chbSet rfl
    exact (next_clientStep hstep).not_apart hs.toNothingRead hapart
  · intro s a s' hs _ hstep hquiet
    exact (next_clientStep hstep).noData hs hquiet

/-- A heartbeat is answered, and data come after `select` has returned. -/
def heartbeatFirst : List Label :=
  [.timeout, .arrive .chb [0], .ready true false, .arrive .sdata [65, 66], .recv 1]

/-- Data come alone: the data branch waits on `chb`, and then takes the next heartbeat byte. -/
def dataFirst : List Label :=
  [.arrive .sdata [65, 66], .ready false true, .arrive .chb [0], .recv 1024]

theorem apart_iff_one_heartbeat :
    (∃ st, exec next start heartbeatFirst = some st ∧ st.rounds = [(false, 0)] ∧
      Throughout Apart (trace next start heartbeatFirst) st) ∧
    ∃ st, exec next start dataFirst = some st ∧ st.processed = [(.chb, 0)] ∧
      ¬ Throughout Apart (trace next start dataFirst) st := by
  constructor
  · have hexec : exec next start heartbeatFirst = some _ := rfl
    refine ⟨_, hexec, by decide, (apart_iff _ _ (Run.of_exec hexec)).mpr ?_⟩
    intro p hp chbSet hset
    have hmem : p.2 ∈ heartbeatFirst := List.mem_map_of_mem (f := Prod.snd) hp
    rw [hset] at hmem
    simp [heartbeatFirst] at hmem
  · have hexec : exec next start dataFirst = some _ := rfl
    refine ⟨_, hexec, by decide, fun hapart => ?_⟩
    exact (apart_iff _ _ (Run.of_exec hexec)).mp hapart (_, .ready false true)
      (List.mem_cons_of_mem _ List.mem_cons_self) false rfl

/-- Data come, and after the heartbeat byte another one: the data branch processes that. -/
theorem not_always_apart :
    ¬ ∀ (tr : List (State × Label)) (st : State), Run next start tr st →
      Throughout Apart tr st := by
  intro hall
  let labels := [Label.arrive .sdata [65, 66], .arrive .chb [0, 0], .ready true true, .recv 1,
    .recv 1024]
  have hdone : (exec next start labels).map State.processed = some [(.chb, 0)] := by decide
  obtain ⟨st, hst, hprocessed⟩ := Option.map_eq_some_iff.mp hdone
  have hsource := (hall _ st (Run.of_exec hst)).2.data_only (.chb, 0) (by rw [hprocessed]; decide)
  cases hsource

end LinuxPrograms.HeartBeat2
