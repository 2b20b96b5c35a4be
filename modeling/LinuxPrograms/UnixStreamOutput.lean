import LinuxPrograms.UnixStream
import Mathlib.Data.List.Nodup

/-! What the server of `unixStream` writes: the inputs of the clients, one after the other in the
order in which it accepted their connections. -/
namespace LinuxPrograms.UnixStream
open Lib

variable {capacity n : ℕ} {inputs : ℕ → List UInt8} {s s' : State} {a : Act}

/-! The bytes of one client. -/

/-- What the client has done with its input, of which the server has read `got`. -/
def Client.Follows (input got : List UInt8) (c : Client) : Prop :=
  match c.pc with
  | .connect => got ++ c.sock = [] ∧ c.stdin = input
  | .read => got ++ c.sock ++ c.stdin = input
  | .write buf => buf ≠ [] ∧ got ++ c.sock ++ (buf ++ c.stdin) = input
  | .exited => got ++ c.sock = input
  | .failed => got ++ c.sock <+: input

theorem Client.Follows.isPrefix {input got : List UInt8} {c : Client} (h : c.Follows input got) :
    got ++ c.sock <+: input := by
  unfold Client.Follows at h
  split at h
  · rw [h.1]
    exact List.nil_prefix
  · exact ⟨_, h⟩
  · exact ⟨_, h.2⟩
  · exact h ▸ List.prefix_rfl
  · exact h

theorem ClientMove.follows {c c' : Client} {input got : List UInt8}
    (h : ClientMove capacity c c') (hc : c.Follows input got) : c'.Follows input got := by
  have hprefix := hc.isPrefix
  unfold Client.Follows at hc
  cases h with
  | eof hpc hend =>
    rw [hpc] at hc
    rw [hend, List.append_nil] at hc
    exact hc
  | @read k hpc hmore hk =>
    rw [hpc] at hc
    refine ⟨fun hnil => ?_, ?_⟩
    · rcases List.take_eq_nil_iff.mp hnil with h | h
      · exact hk h
      · exact hmore h
    · dsimp only
      rw [List.take_append_drop]
      exact hc
  | @write buf n hpc hn hroom =>
    rw [hpc] at hc
    obtain ⟨-, hc⟩ := hc
    unfold Client.Follows
    dsimp only
    by_cases hall : buf.length ≤ n
    · rw [if_pos hall]
      dsimp only
      rw [List.take_of_length_le hall, ← List.append_assoc, List.append_assoc _ buf]
      exact hc
    · rw [if_neg hall]
      refine ⟨fun hnil => hall (List.drop_eq_nil_iff.mp hnil), ?_⟩
      rw [← List.append_assoc got, List.append_assoc _ (buf.take n),
        ← List.append_assoc (buf.take n), List.take_append_drop]
      exact hc
  | fail => exact hprefix

/-- The server reads from the client's socket. -/
theorem Client.Follows.receive {c : Client} {input got : List UInt8} (h : c.Follows input got)
    (k : ℕ) : { c with sock := c.sock.drop k : Client }.Follows input (got ++ c.sock.take k) := by
  have hsame : got ++ c.sock.take k ++ c.sock.drop k = got ++ c.sock := by
    rw [List.append_assoc, List.take_append_drop]
  unfold Client.Follows at h ⊢
  dsimp only
  rw [hsame]
  exact h

/-! The connections. -/

/-- What the server has read and not written. -/
def ServerPc.buf : ServerPc → List UInt8
  | .write _ buf => buf
  | .failed lost => lost
  | _ => []

/-- The connection it serves. -/
def ServerPc.serves : ServerPc → Option ℕ
  | .read cfd | .write cfd _ => some cfd
  | _ => none

def ServerPc.hasFailed : ServerPc → Bool
  | .failed _ => true
  | _ => false

/-- The connections are served one after the other, each to its end. -/
structure Inv (n : ℕ) (inputs : ℕ → List UInt8) (s : State) : Prop where
  count : s.clients.length = n
  follows : ∀ (i : ℕ) (c : Client), s.clients[i]? = some c → c.Follows (inputs i) (s.got i)
  nodup : (s.accepted ++ s.pending).Nodup
  bound : ∀ i ∈ s.accepted ++ s.pending, i < n
  unconnected : ∀ i c, s.clients[i]? = some c → c.pc = .connect → i ∉ s.accepted ++ s.pending
  connected : ∀ i c, s.clients[i]? = some c → c.pc ≠ .connect → c.pc ≠ .failed →
    i ∈ s.accepted ++ s.pending
  serving : ∀ cfd, s.server.serves = some cfd → ∃ before, s.accepted = before ++ [cfd]
  served : s.server.hasFailed = false → ∀ i ∈ s.accepted, s.server.serves ≠ some i →
    ∀ c, s.clients[i]? = some c → c.closed = true ∧ c.sock = []
  earlier : ∀ i ∈ s.accepted.dropLast, ∀ c, s.clients[i]? = some c →
    c.closed = true ∧ c.sock = []
  untouched : ∀ i ∉ s.accepted, s.got i = []
  output : s.stdout ++ s.server.buf = (s.accepted.map s.got).flatten

theorem ClientMove.not_closed {c c' : Client} (h : ClientMove capacity c c') :
    c.closed = false ∧ (c'.pc = .connect → c.pc = .connect) ∧
      (c'.pc ≠ .failed → c.pc ≠ .connect ∧ c.pc ≠ .failed) := by
  unfold Client.closed
  cases h with
  | eof hpc => simp [hpc]
  | read hpc => simp [hpc]
  | @write buf n hpc =>
    refine ⟨by simp [hpc], fun h => ?_, by simp [hpc]⟩
    dsimp only at h
    split at h <;> cases h
  | fail hopen => exact ⟨hopen, nofun, fun h => (h rfl).elim⟩

theorem setup_clients {i : ℕ} {c : Client} (h : (setup n inputs).clients[i]? = some c) :
    c = ⟨.connect, inputs i, []⟩ := by
  rw [setup, List.getElem?_map] at h
  obtain ⟨j, hj, rfl⟩ := Option.map_eq_some_iff.mp h
  obtain ⟨hlt, rfl⟩ := List.getElem?_eq_some_iff.mp hj
  rw [List.getElem_range]

theorem setup_inv : Inv n inputs (setup n inputs) where
  count := by rw [setup, List.length_map, List.length_range]
  follows := by
    intro i c hi
    rw [setup_clients hi]
    exact ⟨rfl, rfl⟩
  nodup := List.nodup_nil
  bound := fun _ h => (List.not_mem_nil h).elim
  unconnected := fun _ _ _ _ => List.not_mem_nil
  connected := by
    intro i c hi hpc
    rw [setup_clients hi] at hpc
    exact (hpc rfl).elim
  serving := nofun
  served := fun _ _ h => (List.not_mem_nil h).elim
  earlier := fun _ h => (List.not_mem_nil h).elim
  untouched := fun _ _ => rfl
  output := rfl

/-- A client moves and stays connected, or unconnected. -/
theorem Inv.client (hs : Inv n inputs s) {i : ℕ} {c c' : Client} (hi : s.clients[i]? = some c)
    (hmove : ClientMove capacity c c') : Inv n inputs { s with clients := s.clients.set i c' } where
  count := by rw [List.length_set, hs.count]
  follows := by
    intro j c'' hj
    rcases getElem?_set_cases hj with ⟨rfl, rfl⟩ | ⟨-, hj⟩
    · exact hmove.follows (hs.follows _ _ hi)
    · exact hs.follows j c'' hj
  nodup := hs.nodup
  bound := hs.bound
  unconnected := by
    intro j c'' hj hpc
    rcases getElem?_set_cases hj with ⟨rfl, rfl⟩ | ⟨-, hj⟩
    · exact hs.unconnected _ _ hi (hmove.not_closed.2.1 hpc)
    · exact hs.unconnected j c'' hj hpc
  connected := by
    intro j c'' hj hpc hpc'
    rcases getElem?_set_cases hj with ⟨rfl, rfl⟩ | ⟨-, hj⟩
    · obtain ⟨hconnect, hfailed⟩ := hmove.not_closed.2.2 hpc'
      exact hs.connected _ _ hi hconnect hfailed
    · exact hs.connected j c'' hj hpc hpc'
  serving := hs.serving
  served := by
    intro hrun j hj hserves c'' hc''
    rcases getElem?_set_cases hc'' with ⟨rfl, rfl⟩ | ⟨-, hc''⟩
    -- a client that was served to its end is closed, and moves no more
    · have hclosed := (hs.served hrun _ hj hserves _ hi).1
      exact (Bool.false_ne_true (hmove.not_closed.1.symm.trans hclosed)).elim
    · exact hs.served hrun j hj hserves c'' hc''
  earlier := by
    intro j hj c'' hc''
    rcases getElem?_set_cases hc'' with ⟨rfl, rfl⟩ | ⟨-, hc''⟩
    · have hclosed := (hs.earlier _ hj _ hi).1
      exact (Bool.false_ne_true (hmove.not_closed.1.symm.trans hclosed)).elim
    · exact hs.earlier j hj c'' hc''
  untouched := hs.untouched
  output := hs.output

theorem Inv.connect (hs : Inv n inputs s) {i : ℕ} {c : Client} (hi : s.clients[i]? = some c)
    (hpc : c.pc = .connect) :
    Inv n inputs { s with
      clients := s.clients.set i { c with pc := .read }, pending := s.pending ++ [i] } where
  count := by rw [List.length_set, hs.count]
  follows := by
    intro j c'' hj
    rcases getElem?_set_cases hj with ⟨rfl, rfl⟩ | ⟨-, hj⟩
    · have hfollows := hs.follows _ _ hi
      unfold Client.Follows at hfollows
      rw [hpc] at hfollows
      unfold Client.Follows
      dsimp only
      rw [hfollows.1, hfollows.2, List.nil_append]
    · exact hs.follows j c'' hj
  nodup := by
    dsimp only
    rw [← List.append_assoc, ← List.concat_eq_append]
    exact hs.nodup.concat (hs.unconnected i c hi hpc)
  bound := by
    intro j hj
    rw [← List.append_assoc, List.mem_append, List.mem_singleton] at hj
    rcases hj with hj | rfl
    · exact hs.bound j hj
    · rw [← hs.count]
      exact (List.getElem?_eq_some_iff.mp hi).1
  unconnected := by
    intro j c'' hj hpc'
    rcases getElem?_set_cases hj with ⟨rfl, rfl⟩ | ⟨hne, hj⟩
    · cases hpc'
    · dsimp only
      rw [← List.append_assoc, List.mem_append, List.mem_singleton, not_or]
      exact ⟨hs.unconnected j c'' hj hpc', hne⟩
  connected := by
    intro j c'' hj hpc' hpc''
    dsimp only
    rw [← List.append_assoc, List.mem_append, List.mem_singleton]
    rcases getElem?_set_cases hj with ⟨rfl, rfl⟩ | ⟨-, hj⟩
    · exact .inr rfl
    · exact .inl (hs.connected j c'' hj hpc' hpc'')
  serving := hs.serving
  served := by
    intro hrun j hj hserves c'' hc''
    rcases getElem?_set_cases hc'' with ⟨rfl, rfl⟩ | ⟨-, hc''⟩
    · exact (hs.unconnected _ c hi hpc (List.mem_append_left _ hj)).elim
    · exact hs.served hrun j hj hserves c'' hc''
  earlier := by
    intro j hj c'' hc''
    rcases getElem?_set_cases hc'' with ⟨rfl, rfl⟩ | ⟨-, hc''⟩
    · have hmem := List.mem_append_left s.pending (List.dropLast_subset _ hj)
      exact (hs.unconnected _ c hi hpc hmem).elim
    · exact hs.earlier j hj c'' hc''
  untouched := hs.untouched
  output := hs.output

theorem flatten_concat (l : List ℕ) (i : ℕ) (got : ℕ → List UInt8) :
    ((l ++ [i]).map got).flatten = (l.map got).flatten ++ got i := by
  rw [List.map_append, List.flatten_append, List.map_singleton, List.flatten_singleton]

theorem Inv.accept (hs : Inv n inputs s) {i : ℕ} {pending : List ℕ} (hpc : s.server = .accept)
    (hi : s.pending = i :: pending) :
    Inv n inputs
      { s with server := .read i, pending := pending, accepted := s.accepted ++ [i] } := by
  have hsame : s.accepted ++ [i] ++ pending = s.accepted ++ s.pending := by
    rw [hi, List.append_assoc, List.singleton_append]
  have hnew : i ∉ s.accepted := by
    have hnodup := hs.nodup
    rw [hi, List.nodup_middle, List.nodup_cons, List.mem_append, not_or] at hnodup
    exact hnodup.1.1
  refine ⟨hs.count, hs.follows, hsame ▸ hs.nodup, hsame ▸ hs.bound, hsame ▸ hs.unconnected,
    hsame ▸ hs.connected, ?_, ?_, ?_, ?_, ?_⟩
  · intro cfd hcfd
    cases hcfd
    exact ⟨s.accepted, rfl⟩
  · intro _ j hj hserves c hc
    rcases List.mem_append.mp hj with hj | hj
    · exact hs.served (by rw [hpc]; rfl) j hj (by rw [hpc]; nofun) c hc
    · exact (hserves (congrArg some (List.mem_singleton.mp hj).symm)).elim
  -- the server has moved on from all those it accepted before
  · intro j hj c hc
    rw [List.dropLast_concat] at hj
    exact hs.served (by rw [hpc]; rfl) j hj (by rw [hpc]; nofun) c hc
  · intro j hj
    exact hs.untouched j fun hmem => hj (List.mem_append_left _ hmem)
  · have houtput := hs.output
    rw [hpc] at houtput
    dsimp only
    rw [flatten_concat, hs.untouched i hnew, List.append_nil]
    exact houtput

/-- The end of the input of the connection that is served. -/
theorem Inv.hangUp (hs : Inv n inputs s) {cfd : ℕ} {c : Client} (hpc : s.server = .read cfd)
    (hc : s.clients[cfd]? = some c) (hsock : c.sock = []) (hclosed : c.closed = true) :
    Inv n inputs { s with server := .accept } where
  count := hs.count
  follows := hs.follows
  nodup := hs.nodup
  bound := hs.bound
  unconnected := hs.unconnected
  connected := hs.connected
  serving := nofun
  served := by
    intro _ j hj _ c' hc'
    by_cases hcfd : j = cfd
    · rw [hcfd, hc] at hc'
      cases hc'
      exact ⟨hclosed, hsock⟩
    · have hother : s.server.serves ≠ some j := by
        rw [hpc]
        exact fun h => hcfd (Option.some.inj h).symm
      exact hs.served (by rw [hpc]; rfl) j hj hother c' hc'
  earlier := hs.earlier
  untouched := hs.untouched
  output := by
    have houtput := hs.output
    rw [hpc] at houtput
    exact houtput

theorem Inv.receive (hs : Inv n inputs s) {cfd : ℕ} {c : Client} (hpc : s.server = .read cfd)
    (hc : s.clients[cfd]? = some c) (k : ℕ) :
    Inv n inputs { s with
      server := .write cfd (c.sock.take k)
      clients := s.clients.set cfd { c with sock := c.sock.drop k }
      got := Function.update s.got cfd (s.got cfd ++ c.sock.take k) } := by
  obtain ⟨before, hbefore⟩ := hs.serving cfd (by rw [hpc]; rfl)
  have hnew : cfd ∉ before := by
    have hnodup := (List.nodup_append.mp hs.nodup).1
    rw [hbefore, ← List.concat_eq_append, List.nodup_concat] at hnodup
    exact hnodup.1
  have hmem : cfd ∈ s.accepted := hbefore ▸ List.mem_append_right _ (List.mem_singleton_self _)
  refine ⟨?_, ?_, hs.nodup, hs.bound, ?_, ?_, ?_, ?_, ?_, ?_, ?_⟩
  · dsimp only
    rw [List.length_set, hs.count]
  · intro j c' hj
    dsimp only
    rcases getElem?_set_cases hj with ⟨rfl, rfl⟩ | ⟨hne, hj⟩
    · rw [Function.update_self]
      exact (hs.follows _ _ hc).receive k
    · rw [Function.update_of_ne hne]
      exact hs.follows j c' hj
  · intro j c' hj hpc'
    rcases getElem?_set_cases hj with ⟨rfl, rfl⟩ | ⟨-, hj⟩
    · exact hs.unconnected _ _ hc hpc'
    · exact hs.unconnected j c' hj hpc'
  · intro j c' hj hpc' hpc''
    rcases getElem?_set_cases hj with ⟨rfl, rfl⟩ | ⟨-, hj⟩
    · exact hs.connected _ _ hc hpc' hpc''
    · exact hs.connected j c' hj hpc' hpc''
  · intro cfd' hcfd'
    cases hcfd'
    exact ⟨before, hbefore⟩
  · intro _ j hj hserves c' hc'
    rcases getElem?_set_cases hc' with ⟨rfl, rfl⟩ | ⟨-, hc'⟩
    · exact (hserves rfl).elim
    · exact hs.served (by rw [hpc]; rfl) j hj (by rw [hpc]; exact hserves) c' hc'
  · intro j hj c' hc'
    rcases getElem?_set_cases hc' with ⟨rfl, rfl⟩ | ⟨-, hc'⟩
    · dsimp only at hj
      rw [hbefore, List.dropLast_concat] at hj
      exact (hnew hj).elim
    · exact hs.earlier j hj c' hc'
  · intro j hj
    have hne : j ≠ cfd := by
      rintro rfl
      exact hj hmem
    dsimp only
    rw [Function.update_of_ne hne]
    exact hs.untouched j hj
  · have houtput := hs.output
    rw [hpc, hbefore, flatten_concat] at houtput
    -- what is read from this connection follows what was read from those before it
    have hsame : before.map (Function.update s.got cfd (s.got cfd ++ c.sock.take k)) =
        before.map s.got := by
      refine List.map_congr_left fun j hj => Function.update_of_ne ?_ _ _
      rintro rfl
      exact hnew hj
    dsimp only
    rw [hbefore, flatten_concat, Function.update_self, hsame, ← List.append_assoc, ← houtput]
    exact congrArg (· ++ _) (List.append_nil _).symm

/-- The server goes on, and what it has read it has written, or lost. -/
theorem Inv.write (hs : Inv n inputs s) (server : ServerPc) (out : List UInt8)
    (hserves : server.serves = s.server.serves ∨ server.hasFailed = true)
    (hfailed : s.server.hasFailed = true → server.hasFailed = true)
    (hout : out ++ server.buf = s.server.buf) :
    Inv n inputs { s with server := server, stdout := s.stdout ++ out } where
  count := hs.count
  follows := hs.follows
  nodup := hs.nodup
  bound := hs.bound
  unconnected := hs.unconnected
  connected := hs.connected
  serving := by
    intro cfd hcfd
    rcases hserves with hsame | hfailed'
    · exact hs.serving cfd (hsame ▸ hcfd)
    · cases server with
      | failed lost => cases hcfd
      | _ => cases hfailed'
  served := by
    intro hrun j hj hserves' c hc
    have hbefore : s.server.hasFailed = false := by
      by_contra hbefore
      rw [Bool.not_eq_false] at hbefore
      exact Bool.false_ne_true (hrun.symm.trans (hfailed hbefore))
    rcases hserves with hsame | hfailed'
    · exact hs.served hbefore j hj (hsame ▸ hserves') c hc
    · exact (Bool.false_ne_true (hrun.symm.trans hfailed')).elim
  earlier := hs.earlier
  untouched := hs.untouched
  output := by
    dsimp only
    rw [List.append_assoc, hout]
    exact hs.output

theorem Step.inv (h : Step capacity s s') (hs : Inv n inputs s) : Inv n inputs s' := by
  cases h with
  | connect hi hpc => exact hs.connect hi hpc
  | client hi hmove => exact hs.client hi hmove
  | accept hpc hi => exact hs.accept hpc hi
  | hangUp hpc hc hsock hclosed => exact hs.hangUp hpc hc hsock hclosed
  | receive hpc hc => exact hs.receive hpc hc _
  | @print cfd buf hpc =>
    refine hs.write (.read cfd) buf (.inl ?_) ?_ ?_ <;> rw [hpc]
    · rfl
    · exact nofun
    · exact List.append_nil _
  | @lose cfd k buf hpc =>
    refine hs.write (.failed (buf.drop k)) (buf.take k) (.inr rfl) (fun _ => rfl) ?_
    rw [hpc]
    exact List.take_append_drop k buf
  | fail hpc hlost =>
    have hbuf : s.server.buf = [] := by
      cases hserver : s.server with
      | write cfd buf => exact (hpc cfd buf hserver).elim
      | failed lost => exact (hlost lost hserver).elim
      | _ => rfl
    have hwrite := hs.write (.failed []) [] (.inr rfl) (fun _ => rfl) hbuf.symm
    rwa [List.append_nil] at hwrite

theorem reachable_inv (h : Reachable (next capacity) (setup n inputs) s) : Inv n inputs s :=
  h.invariant (fun _ _ _ hs h => (next_step h).inv hs) setup_inv

/-- A client that has exited, and whose socket is empty, has been read to the end. -/
theorem Client.Follows.whole {c : Client} {input got : List UInt8} (h : c.Follows input got)
    (hpc : c.pc = .exited) (hsock : c.sock = []) : got = input := by
  unfold Client.Follows at h
  rw [hpc, hsock, List.append_nil] at h
  exact h

/-- In every state, also after failures: what the server has read of the connections, one after the
other in the order of `accept`, is what it has written and what it still holds. What it has read
of a client is the start of its input. It is all of it for a client that has exited, once the
server has accepted another one after it, or runs and has gone on from it. -/
theorem stdout_in_accept_order (h : Reachable (next capacity) (setup n inputs) s) :
    s.accepted.Nodup ∧ s.stdout ++ s.server.buf = (s.accepted.map s.got).flatten ∧
      (∀ i, s.got i <+: inputs i) ∧
      (∀ i ∈ s.accepted.dropLast, ∀ c, s.clients[i]? = some c → c.pc = .exited →
        s.got i = inputs i) ∧
      (s.server.hasFailed = false → ∀ i ∈ s.accepted, s.server.serves ≠ some i →
        ∀ c, s.clients[i]? = some c → c.pc = .exited → s.got i = inputs i) := by
  have hs := reachable_inv h
  refine ⟨(List.nodup_append.mp hs.nodup).1, hs.output, fun i => ?_, ?_, ?_⟩
  · by_cases hi : i ∈ s.accepted
    · have hlt := hs.bound i (List.mem_append_left _ hi)
      rw [← hs.count] at hlt
      have hfollows := hs.follows i _ (List.getElem?_eq_getElem hlt)
      exact (List.prefix_append _ _).trans hfollows.isPrefix
    · rw [hs.untouched i hi]
      exact List.nil_prefix
  · intro i hi c hc hpc
    exact (hs.follows i c hc).whole hpc (hs.earlier i hi c hc).2
  · intro hrun i hi hserves c hc hpc
    exact (hs.follows i c hc).whole hpc (hs.served hrun i hi hserves c hc).2

/-- Client 0 has two bytes to send, and client 1 has one. -/
def twoInputs : ℕ → List UInt8 := fun i => if i = 0 then [65, 66] else [67]

/-- Client 1 connects first and is served; then the server reads the first byte of client 0. -/
def partRun : List Act :=
  [.connect 1, .connect 0, .clientRead 0 2, .clientWrite 0 2, .accept, .clientRead 1 1,
    .clientWrite 1 1, .clientRead 1 1, .serverRead 1, .serverWrite, .serverRead 1, .accept,
    .serverRead 1]

/-- The server fails before it has written that byte. -/
def partState : State := (exec (next 8) (setup 2 twoInputs) (partRun ++ [.serverFail 0])).get rfl

theorem stdout_in_accept_order_part :
    partState.accepted = [1, 0] ∧ partState.server = .failed [65] ∧
      partState.accepted.Nodup ∧
      partState.stdout ++ partState.server.buf = (partState.accepted.map partState.got).flatten ∧
      (∀ i, partState.got i <+: twoInputs i) ∧
      (∀ i ∈ partState.accepted.dropLast, ∀ c, partState.clients[i]? = some c → c.pc = .exited →
        partState.got i = twoInputs i) ∧
      (partState.server.hasFailed = false → ∀ i ∈ partState.accepted,
        partState.server.serves ≠ some i →
        ∀ c, partState.clients[i]? = some c → c.pc = .exited → partState.got i = twoInputs i) :=
  ⟨rfl, rfl, stdout_in_accept_order (Reachable.of_exec
    (show exec (next 8) (setup 2 twoInputs) (partRun ++ [.serverFail 0]) = some partState
      from rfl))⟩

/-! At rest. -/

/-- Nobody can move, unless a program fails. -/
def AtRest (capacity : ℕ) (s : State) : Prop := ∀ a, a.fails = false → next capacity s a = none

/-- A connected client whose socket has room can move until it has exited. -/
theorem client_stuck (hcapacity : 0 < capacity) (hrest : AtRest capacity s) {i : ℕ} {c : Client}
    (hi : s.clients[i]? = some c) (hpc : c.pc ≠ .connect) (hsock : c.sock = []) :
    c.closed = true := by
  cases hc : c.pc with
  | connect => exact (hpc hc).elim
  | read =>
    have hread := hrest (.clientRead i 1) rfl
    rw [next, State.client, hi, Option.bind_some, Option.map_eq_none_iff, clientRead,
      if_pos hc] at hread
    split at hread <;> cases hread
  | write buf =>
    have hwrite := hrest (.clientWrite i 1) rfl
    rw [next, State.client, hi, Option.bind_some, Option.map_eq_none_iff] at hwrite
    simp only [clientWrite, hc, hsock] at hwrite
    rw [if_neg (by rw [List.length_nil]; omega)] at hwrite
    cases hwrite
  | exited | failed => rw [Client.closed, hc]; rfl

theorem Inv.server_at_rest (hs : Inv n inputs s) (hcapacity : 0 < capacity)
    (hrest : AtRest capacity s) (hrun : s.server.hasFailed = false) :
    s.server = .accept ∧ s.pending = [] := by
  cases hserver : s.server with
  | accept =>
    refine ⟨rfl, ?_⟩
    cases hpending : s.pending with
    | nil => rfl
    | cons i pending =>
      have haccept := hrest .accept rfl
      simp only [next, hserver, hpending] at haccept
      cases haccept
  | read cfd =>
    obtain ⟨before, hbefore⟩ := hs.serving cfd (by rw [hserver]; rfl)
    have hmem : cfd ∈ s.accepted ++ s.pending := by
      rw [hbefore]
      exact List.mem_append_left _ (List.mem_append_right _ (List.mem_singleton_self _))
    have hlt := hs.bound cfd hmem
    rw [← hs.count] at hlt
    have hc := List.getElem?_eq_getElem hlt
    have hread := hrest (.serverRead 1) rfl
    simp only [next, hserver] at hread
    rw [hc, Option.bind_some, serverRead] at hread
    split at hread
    · next hsock =>
      have hclosed := client_stuck hcapacity hrest hc
        (fun hpc => hs.unconnected cfd _ hc hpc hmem) hsock
      rw [if_pos hclosed] at hread
      cases hread
    · cases hread
  | write cfd buf =>
    have hwrite := hrest .serverWrite rfl
    simp only [next, hserver] at hwrite
    cases hwrite
  | failed lost =>
    rw [hserver] at hrun
    cases hrun

/-- If nobody fails, then when nothing can move any more, every client has been served, and the
server has written their inputs, one after the other in the order of `accept`. -/
theorem stdout_at_rest (hcapacity : 0 < capacity)
    (h : Reachable (next capacity) (setup n inputs) s) (hrest : AtRest capacity s)
    (hserver : s.server.hasFailed = false) (hclients : ∀ c ∈ s.clients, c.pc ≠ .failed) :
    s.accepted.Perm (List.range n) ∧ s.stdout = (s.accepted.map inputs).flatten := by
  have hs := reachable_inv h
  obtain ⟨haccept, hpending⟩ := hs.server_at_rest hcapacity hrest hserver
  have hconnected : ∀ (i : ℕ) (c : Client), s.clients[i]? = some c → c.pc ≠ .connect := by
    intro i c hi hpc
    have hconnect := hrest (.connect i) rfl
    have hroom : ¬s.pending.length > backlog := by
      rw [hpending]
      exact Nat.not_lt_zero _
    rw [next, if_neg hroom, Option.map_eq_none_iff, State.client, hi, Option.bind_some,
      Option.map_eq_none_iff, if_pos hpc] at hconnect
    cases hconnect
  have hmem : ∀ i, i ∈ s.accepted ↔ i < n := by
    intro i
    constructor
    · exact fun hi => hs.bound i (List.mem_append_left _ hi)
    · intro hi
      rw [← hs.count] at hi
      have hc := List.getElem?_eq_getElem hi
      have hi := hs.connected i _ hc (hconnected i _ hc) (hclients _ (List.getElem_mem hi))
      rwa [hpending, List.append_nil] at hi
  have hnodup := (List.nodup_append.mp hs.nodup).1
  have hserved : ∀ i ∈ s.accepted, s.got i = inputs i := by
    intro i hi
    have hlt := (hmem i).mp hi
    rw [← hs.count] at hlt
    have hc := List.getElem?_eq_getElem hlt
    have hserves : s.server.serves ≠ some i := by
      rw [haccept]
      exact (Option.some_ne_none i).symm
    obtain ⟨hclosed, hsock⟩ := hs.served hserver i hi hserves _ hc
    have hfollows := hs.follows i _ hc
    have hexited : s.clients[i].pc = .exited := by
      unfold Client.closed at hclosed
      rcases Bool.or_eq_true_iff.mp hclosed with hpc | hpc
      · exact of_decide_eq_true hpc
      · exact (hclients _ (List.getElem_mem hlt) (of_decide_eq_true hpc)).elim
    exact hfollows.whole hexited hsock
  have houtput := hs.output
  rw [haccept, List.map_congr_left hserved] at houtput
  refine ⟨?_, (List.append_nil _).symm.trans houtput⟩
  exact (List.perm_ext_iff_of_nodup hnodup List.nodup_range).mpr fun i => by
    rw [hmem, List.mem_range]

/-- The second byte follows, and the client and the connection end. -/
def wholeRun : List Act :=
  partRun ++ [.serverWrite, .serverRead 1, .serverWrite, .clientRead 0 1, .serverRead 1]

def wholeState : State := (exec (next 8) (setup 2 twoInputs) wholeRun).get rfl

theorem wholeState_at_rest : AtRest 8 wholeState := by
  intro a ha
  cases a with
  | connect i | clientRead i | clientWrite i =>
    rcases i with _ | _ | i <;> rfl
  | accept | serverRead | serverWrite => rfl
  | clientFail | serverFail => cases ha

theorem stdout_at_rest_whole :
    wholeState.accepted = [1, 0] ∧ wholeState.accepted.Perm (List.range 2) ∧
      wholeState.stdout = (wholeState.accepted.map twoInputs).flatten :=
  ⟨rfl, stdout_at_rest (by decide)
    (Reachable.of_exec (show exec (next 8) (setup 2 twoInputs) wholeRun = some wholeState from rfl))
    wholeState_at_rest rfl (by decide)⟩

/-! Coming to rest. -/

/-- How much a client can still move, and make the server move. -/
def ClientPc.work : ClientPc → ℕ
  | .connect => 4
  | .read => 1
  | .write buf => 2+4*buf.length
  | .exited | .failed => 0

def Client.work (c : Client) : ℕ := 6*c.stdin.length+3*c.sock.length+c.pc.work

def ServerPc.work : ServerPc → ℕ
  | .accept => 1
  | .read _ => 2
  | .write _ buf => 3+buf.length
  | .failed _ => 0

def State.work (s : State) : ℕ :=
  (s.clients.map Client.work).sum+2*s.pending.length+s.server.work

theorem ClientMove.work {c c' : Client} (h : ClientMove capacity c c') : c'.work < c.work := by
  unfold Client.work
  cases h with
  | eof hpc =>
    rw [hpc]
    exact Nat.lt_succ_self _
  | @read k hpc hmore hk =>
    have hpos := List.length_pos_iff.mpr hmore
    rw [hpc]
    dsimp only [ClientPc.work]
    rw [List.length_take, List.length_drop]
    omega
  | @write buf k hpc hk =>
    rw [hpc]
    dsimp only
    rw [List.length_append, List.length_take]
    split <;> dsimp only [ClientPc.work]
    · omega
    · rw [List.length_drop]
      omega
  | fail hopen =>
    dsimp only [ClientPc.work]
    cases hpc : c.pc with
    | exited | failed =>
      rw [Client.closed, hpc] at hopen
      cases hopen
    | _ =>
      dsimp only [ClientPc.work]
      omega

theorem Step.work (h : Step capacity s s') : s'.work < s.work := by
  unfold State.work
  cases h with
  | @connect i c hi hpc =>
    have hsum := sum_set Client.work hi { c with pc := .read }
    have hclient : ({ c with pc := .read } : Client).work+3 = c.work := by
      unfold Client.work
      rw [hpc]
      rfl
    dsimp only
    rw [List.length_append, List.length_singleton]
    omega
  | @client i c c' hi hmove =>
    have hsum := sum_set Client.work hi c'
    have hclient := hmove.work
    dsimp only
    omega
  | accept hpc hi =>
    rw [hpc, hi, List.length_cons]
    dsimp only [ServerPc.work]
    omega
  | hangUp hpc =>
    rw [hpc]
    dsimp only [ServerPc.work]
    omega
  | @receive cfd k c hpc hc hsock hk =>
    have hsum := sum_set Client.work hc { c with sock := c.sock.drop k }
    have hpos := List.length_pos_iff.mpr hsock
    have hclient : ({ c with sock := c.sock.drop k } : Client).work+3*(min k c.sock.length) =
        c.work := by
      unfold Client.work
      dsimp only
      rw [List.length_drop]
      omega
    rw [hpc]
    dsimp only [ServerPc.work]
    rw [List.length_take]
    omega
  | print hpc =>
    rw [hpc]
    dsimp only [ServerPc.work]
    omega
  | lose hpc =>
    rw [hpc]
    dsimp only [ServerPc.work]
    omega
  | fail hpc hlost =>
    cases hserver : s.server with
    | write cfd buf => exact (hpc cfd buf hserver).elim
    | failed lost => exact (hlost lost hserver).elim
    | _ =>
      dsimp only [ServerPc.work]
      omega

/-- Whatever the order of the steps and the sizes of the transfers, the programs come to rest. -/
theorem transfers_length_le {tr : List (State × Act)}
    (h : Run (next capacity) (setup n inputs) tr s) :
    tr.length ≤ ((List.range n).map fun i => 6*(inputs i).length+4).sum+1 := by
  have hbound := h.length_le_of_measure (I := fun _ => True) State.work
    (fun _ _ _ _ _ => trivial) (fun _ _ _ _ h => (next_step h).work) trivial
  have hsetup : (setup n inputs).work =
      ((List.range n).map fun i => 6*(inputs i).length+4).sum+1 := by
    unfold State.work setup
    rw [List.map_map]
    rfl
  omega

theorem transfers_length_le_whole :
    (trace (next 8) (setup 2 twoInputs) wholeRun).length ≤
      ((List.range 2).map fun i => 6*(twoInputs i).length+4).sum+1 :=
  transfers_length_le (Run.of_exec
    (show exec (next 8) (setup 2 twoInputs) wholeRun = some wholeState from rfl))

end LinuxPrograms.UnixStream
