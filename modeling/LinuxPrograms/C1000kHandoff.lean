import LinuxPrograms.C1000kEffects
import Mathlib.Algebra.BigOperators.Group.Finset.Basic
import Mathlib.Algebra.BigOperators.Group.Finset.Piecewise
import Mathlib.Algebra.Order.Group.Multiset
import Mathlib.Order.Interval.Finset.Nat
import Mathlib.Tactic.Abel

/-! Conservation of descriptors between `accept` and the worker sockets. The byte invariant says
what each channel's socket and buffer hold; the descriptor invariant says where every accepted
descriptor is. -/
namespace LinuxPrograms.C1000k
open Lib
open scoped BigOperators

/-- The worker channels of the server. -/
def Config.workers (cfg : Config) : Finset ℕ := Finset.Ico 1 cfg.cpuNum

theorem Config.mem_workers (cfg : Config) (i : ℕ) : i ∈ cfg.workers ↔ i ∈ cfg.channels := by
  rw [workers, Finset.mem_Ico, mem_channels]

theorem Config.peer_ne (cfg : Config) {i j : ℕ} (hi : i ∈ cfg.channels) (hj : j ∈ cfg.channels)
    (hij : i ≠ j) : cfg.peer i ≠ cfg.peer j := by
  rw [mem_channels] at hi hj
  exact fun h => hij (cfg.peer_inj i j hi.1 hi.2 hj.1 hj.2 h)

def AcceptedFD.descriptors (node : AcceptedFD) : List ℕ := decodeInts node.acceptedFdBuff

/-- The bytes in the buffer of socket `fd` that no `send` has taken yet. -/
def Server.unsent (s : Server) (fd : ℕ) : List UInt8 :=
  match s.dispatch with
  | .send f _ =>
    if f.fd = fd then (s.sendfdBuff fd).slice f.sended f.needSend else (s.sendfdBuff fd).pending
  | _ => (s.sendfdBuff fd).pending

/-- A node made from a non-empty batch. -/
def AcceptedFD.Ok (node : AcceptedFD) : Prop :=
  ∃ fdBuff, node = .ofBatch fdBuff ∧ BatchOk fdBuff ∧ fdBuff ≠ []

structure NodesOk (s : Server) : Prop where
  list : ∀ node ∈ s.acceptedFDlist, node.Ok
  detached : ∀ node ∈ s.dispatch.nodes, node.Ok
  assigned : ∀ i, ∀ node ∈ s.assigned i, node.Ok

/-- The buffers are within bounds, and the loop of `sendConnectionsToWorker` is within the bytes
it set out to send. -/
structure BuffersOk (s : Server) : Prop where
  size : ∀ fd, 0 ≤ (s.sendfdBuff fd).needSendLen ∧ (s.sendfdBuff fd).needSendLen ≤ sendBuffSize
  frame : ∀ f rest, s.dispatch = .send f rest →
    f.needSend = (s.sendfdBuff f.fd).needSendLen ∧ 0 ≤ f.sended ∧ f.sended ≤ f.needSend

theorem DispatchPc.loop_nodes (rest : List AcceptedFD) : (DispatchPc.loop rest).nodes = rest := by
  cases rest <;> rfl

theorem DispatchPc.loop_ne_send (rest : List AcceptedFD) (f : SendFrame)
    (rest' : List AcceptedFD) : DispatchPc.loop rest ≠ .send f rest' := by
  cases rest <;> exact DispatchPc.noConfusion

theorem Effect.nodesOk {cfg : Config} {s s' : Server} {a : Act} (h : Effect cfg s a s')
    (hn : NodesOk s) : NodesOk s' := by
  cases h with
  | pushed _ _ hold hne _ =>
    refine ⟨fun node hnode => ?_, hn.detached, hn.assigned⟩
    rcases List.mem_cons.mp hnode with rfl | hnode
    · exact ⟨s.main.batch, rfl, hold, hne⟩
    · exact hn.list node hnode
  | detached _ _ =>
    refine ⟨fun node hnode => ?_, hn.list, hn.assigned⟩
    cases hnode
  | appended node rest hd hc hfit =>
    have hdet := hn.detached
    rw [hd] at hdet
    refine ⟨hn.list, fun n hnode => hdet n (List.mem_cons_of_mem _ hnode), fun i n hnode => ?_⟩
    -- only the chosen channel has a new node
    by_cases hi : i = cfg.channel s.sum
    · subst hi
      simp only [Function.update_self] at hnode
      rcases List.mem_append.mp hnode with hnode | hnode
      · exact hn.assigned _ n hnode
      · rw [List.mem_singleton.mp hnode]
        exact hdet node List.mem_cons_self
    · dsimp only at hnode
      rw [Function.update_of_ne hi] at hnode
      exact hn.assigned i n hnode
  | sent f rest _ _ hd _ _ =>
    have hdet := hn.detached
    rw [hd] at hdet
    exact ⟨hn.list, hdet, hn.assigned⟩
  | sendFailed f rest _ hd =>
    have hdet := hn.detached
    rw [hd] at hdet
    exact ⟨hn.list, hdet, hn.assigned⟩
  | settled f rest hd =>
    have hdet := hn.detached
    rw [hd] at hdet
    refine ⟨hn.list, fun node hnode => ?_, hn.assigned⟩
    rw [DispatchPc.loop_nodes] at hnode
    exact hdet node hnode
  | _ => exact ⟨hn.list, hn.detached, hn.assigned⟩

theorem Effect.buffersOk {cfg : Config} {s s' : Server} {a : Act} (h : Effect cfg s a s')
    (hb : BuffersOk s) : BuffersOk s' := by
  cases h with
  | detached _ _ =>
    refine ⟨hb.size, fun f rest hf => ?_⟩
    cases hf
  | appended node rest hd hc hfit =>
    obtain ⟨h0, hle⟩ := hfit
    refine ⟨fun fd => ?_, fun f rest' hf => ?_⟩
    · dsimp only
      -- the bound of the grown buffer is the one `Fits` tested
      by_cases hfd : fd = cfg.peer (cfg.channel s.sum)
      · subst hfd
        rw [Function.update_self]
        exact ⟨by simp only [SendFdBuff.append]; omega, hle⟩
      · rw [Function.update_of_ne hfd]
        exact hb.size fd
    · cases hf
      dsimp only
      rw [Function.update_self]
      exact ⟨rfl, le_rfl, by omega⟩
  | sent f rest count _ hd hpos hle =>
    obtain ⟨heq, h0, hsn⟩ := hb.frame f rest hd
    refine ⟨hb.size, fun f' rest' hf => ?_⟩
    cases hf
    exact ⟨heq, by dsimp only; omega, by dsimp only; omega⟩
  | sendFailed f rest _ hd =>
    refine ⟨hb.size, fun f' rest' hf => ?_⟩
    cases hf
    exact hb.frame f rest hd
  | settled f rest hd =>
    obtain ⟨heq, h0, hsn⟩ := hb.frame f rest hd
    have hsize := hb.size f.fd
    refine ⟨fun fd => ?_, fun f' rest' hf => absurd hf (DispatchPc.loop_ne_send _ _ _)⟩
    dsimp only
    by_cases hfd : fd = f.fd
    · subst hfd
      rw [Function.update_self]
      exact ⟨by simp only [SendFdBuff.settle]; omega, by simp only [SendFdBuff.settle]; omega⟩
    · rw [Function.update_of_ne hfd]
      exact hb.size fd
  | _ => exact ⟨hb.size, hb.frame⟩

/-- Every channel's socket bytes followed by its unsent bytes are the batches it was assigned. -/
def BytesInv (cfg : Config) (s : Server) : Prop :=
  ∀ i ∈ cfg.channels, s.written (cfg.peer i) ++ s.unsent (cfg.peer i) =
    (s.assigned i).flatMap (·.acceptedFdBuff)

theorem SendFdBuff.slice_append (b : SendFdBuff) {x y z : ℤ} (hxy : x ≤ y) (hyz : y ≤ z) :
    b.slice x y ++ b.slice y z = b.slice x z := by
  simp only [SendFdBuff.slice]
  have hy : (b.buff.take z.toNat).take y.toNat = b.buff.take y.toNat := by
    rw [List.take_take]
    congr 1
    omega
  rw [← hy]
  have hsplit := List.take_append_drop y.toNat (b.buff.take z.toNat)
  have hdrop : (b.buff.take z.toNat).drop y.toNat =
      ((b.buff.take z.toNat).drop x.toNat).drop (y.toNat-x.toNat) := by
    rw [List.drop_drop]
    congr 1
    omega
  have htake : ((b.buff.take z.toNat).take y.toNat).drop x.toNat =
      ((b.buff.take z.toNat).drop x.toNat).take (y.toNat-x.toNat) := by
    rw [List.drop_take]
  rw [hdrop, htake, List.take_append_drop]

/-- Between two nodes nothing is being sent. -/
theorem unsent_loop {s : Server} {rest : List AcceptedFD} (hd : s.dispatch = .loop rest) (fd : ℕ) :
    s.unsent fd = (s.sendfdBuff fd).pending := by
  unfold Server.unsent
  rw [hd]
  cases rest <;> rfl

theorem Effect.bytesInv {cfg : Config} {s s' : Server} {a : Act} (h : Effect cfg s a s')
    (hb : BuffersOk s) (hi : BytesInv cfg s) : BytesInv cfg s' := by
  intro i hmem
  have hold := hi i hmem
  cases h with
  | detached hd _ =>
    simpa only [Server.unsent, hd] using hold
  | appended node rest hd hc hfit =>
    simp only [Server.unsent, hd] at hold ⊢
    -- the appended bytes come after what was pending, in the chosen channel only
    by_cases hic : i = cfg.channel s.sum
    · subst hic
      have hp := SendFdBuff.append_pending _ node hfit
      simp only [if_true, Function.update_self]
      change _ ++ SendFdBuff.pending (SendFdBuff.append _ node hfit) = _
      rw [hp, ← List.append_assoc, hold, List.flatMap_append, List.flatMap_singleton]
    · have hne := cfg.peer_ne hc hmem (Ne.symm hic)
      rw [if_neg hne, Function.update_of_ne hne.symm, Function.update_of_ne hic]
      exact hold
  | sent f rest count _ hd hpos hle =>
    obtain ⟨heq, h0, hsn⟩ := hb.frame f rest hd
    simp only [Server.unsent, hd] at hold ⊢
    -- what `send` took moves from the front of the unsent bytes to the end of the written ones
    by_cases hf : f.fd = cfg.peer i
    · rw [if_pos hf] at hold ⊢
      rw [← hf, Function.update_self, List.append_assoc,
        SendFdBuff.slice_append _ (by omega) (by omega), hf]
      exact hold
    · rw [if_neg hf] at hold ⊢
      rw [Function.update_of_ne (Ne.symm hf)]
      exact hold
  | sendFailed f rest _ hd =>
    simpa only [Server.unsent, hd] using hold
  | settled f rest hd =>
    obtain ⟨heq, h0, hsn⟩ := hb.frame f rest hd
    have hsize := (hb.size f.fd).2
    rw [unsent_loop rfl]
    simp only [Server.unsent, hd] at hold
    -- `memmove` puts the unsent bytes to the front
    by_cases hf : f.fd = cfg.peer i
    · rw [if_pos hf] at hold
      dsimp only
      rw [← hf, Function.update_self,
        SendFdBuff.settle_pending _ _ _ h0 hsn (by omega), hf]
      exact hold
    · rw [if_neg hf] at hold
      dsimp only
      rw [Function.update_of_ne (Ne.symm hf)]
      exact hold
  | _ => exact hold

/-! Where the accepted descriptors are. -/

theorem AcceptedFD.descriptors_ofBatch {fdBuff : List ℕ} (h : BatchOk fdBuff) :
    (AcceptedFD.ofBatch fdBuff).descriptors = fdBuff :=
  decodeInts_encodeInts fdBuff fun fd hfd => (h.2 fd hfd).2.trans maxFd_lt

theorem AcceptedFD.Ok.encoded {node : AcceptedFD} (h : node.Ok) :
    node.acceptedFdBuff = encodeInts node.descriptors ∧ ∀ fd ∈ node.descriptors, fd < 2^32 := by
  obtain ⟨fdBuff, rfl, hok, _⟩ := h
  rw [AcceptedFD.descriptors_ofBatch hok]
  exact ⟨rfl, fun fd hfd => (hok.2 fd hfd).2.trans maxFd_lt⟩

theorem descriptors_lt {nodes : List AcceptedFD} (h : ∀ node ∈ nodes, node.Ok) :
    ∀ fd ∈ nodes.flatMap AcceptedFD.descriptors, fd < 2^32 := by
  intro fd hfd
  obtain ⟨node, hmem, hfd⟩ := List.mem_flatMap.mp hfd
  exact (h node hmem).encoded.2 fd hfd

theorem flatMap_acceptedFdBuff {nodes : List AcceptedFD} (h : ∀ node ∈ nodes, node.Ok) :
    nodes.flatMap (·.acceptedFdBuff) = encodeInts (nodes.flatMap AcceptedFD.descriptors) := by
  unfold encodeInts
  rw [List.flatMap_assoc]
  exact List.flatMap_congr fun node hmem => (h node hmem).encoded.1

/-- A buffer filled from nodes holds exactly the descriptors of the nodes. -/
theorem decodeInts_nodes (nodes : List AcceptedFD) (h : ∀ node ∈ nodes, node.Ok) :
    decodeInts (nodes.flatMap (·.acceptedFdBuff)) = nodes.flatMap AcceptedFD.descriptors := by
  rw [flatMap_acceptedFdBuff h]
  exact decodeInts_encodeInts _ (descriptors_lt h)

/-- Every accepted descriptor is in the local batch, in the list, in a detached node, or in a
batch assigned to one channel. -/
def Conserved (cfg : Config) (s : Server) : Prop :=
  (s.accepted : Multiset ℕ) = (s.main.batch : Multiset ℕ) +
    (s.acceptedFDlist.flatMap AcceptedFD.descriptors : List ℕ) +
    (s.dispatch.nodes.flatMap AcceptedFD.descriptors : List ℕ) +
    ∑ i ∈ cfg.workers, ((s.assigned i).flatMap AcceptedFD.descriptors : Multiset ℕ)

/-- Appending a node to one channel adds its descriptors to the channels' total. -/
theorem sum_assigned_update {cfg : Config} (assigned : ℕ → List AcceptedFD) {c : ℕ}
    (hc : c ∈ cfg.workers) (node : AcceptedFD) :
    ∑ i ∈ cfg.workers, ((Function.update assigned c (assigned c ++ [node]) i).flatMap
        AcceptedFD.descriptors : Multiset ℕ) =
      (node.descriptors : Multiset ℕ) +
        ∑ i ∈ cfg.workers, ((assigned i).flatMap AcceptedFD.descriptors : Multiset ℕ) := by
  have hrest : ∑ i ∈ cfg.workers \ {c},
        ((Function.update assigned c (assigned c ++ [node]) i).flatMap
          AcceptedFD.descriptors : Multiset ℕ) =
      ∑ i ∈ cfg.workers \ {c}, ((assigned i).flatMap AcceptedFD.descriptors : Multiset ℕ) := by
    apply Finset.sum_congr rfl
    intro i hi
    have hne : i ≠ c := by simpa using (Finset.mem_sdiff.mp hi).2
    rw [Function.update_of_ne hne]
  rw [Finset.sum_eq_add_sum_sdiff_singleton_of_mem hc, hrest, Function.update_self,
    Finset.sum_eq_add_sum_sdiff_singleton_of_mem hc
      (fun i => ((assigned i).flatMap AcceptedFD.descriptors : Multiset ℕ)),
    List.flatMap_append, List.flatMap_singleton, ← Multiset.coe_add]
  abel

theorem Effect.conserved {cfg : Config} {s s' : Server} {a : Act} (h : Effect cfg s a s')
    (hs : Conserved cfg s) : Conserved cfg s' := by
  unfold Conserved at hs ⊢
  cases h with
  | control _ pc _ _ hb => rw [hb]; exact hs
  | accepted fd pc _ _ hb =>
    dsimp only
    rw [hb, ← Multiset.coe_add, ← Multiset.coe_add, hs]
    abel
  | pushed pc _ hold _ hb =>
    rw [hb, hs, List.flatMap_cons, AcceptedFD.descriptors_ofBatch hold, ← Multiset.coe_add]
    simp only [Multiset.coe_nil, zero_add, add_assoc]
  | detached hd _ =>
    rw [hs, hd]
    simp only [DispatchPc.nodes, List.flatMap_nil, Multiset.coe_nil, add_zero]
  | appended node rest hd hc _ =>
    rw [hs, hd, sum_assigned_update s.assigned ((cfg.mem_workers _).mpr hc) node]
    simp only [DispatchPc.nodes, List.flatMap_cons, ← Multiset.coe_add]
    abel
  | sent f rest _ _ hd _ _ => rw [hs, hd]; rfl
  | sendFailed f rest _ hd => rw [hs, hd]; rfl
  | settled f rest hd =>
    rw [hs, hd]
    simp only [DispatchPc.loop_nodes]
    rfl
  | drained => exact hs

/-- The invariants of the accepting side together. -/
structure HandoffInv (cfg : Config) (s : Server) : Prop where
  registered : Registered cfg s
  nodes : NodesOk s
  buffers : BuffersOk s
  bytes : BytesInv cfg s
  conserved : Conserved cfg s

theorem setup_inv (cfg : Config) (room : ℕ → ℕ) : HandoffInv cfg (setup cfg room) where
  registered := setup_registered cfg room
  nodes := ⟨fun _ h => (List.not_mem_nil h).elim, fun _ h => (List.not_mem_nil h).elim,
    fun _ _ h => (List.not_mem_nil h).elim⟩
  buffers := ⟨fun _ => ⟨le_rfl, Int.natCast_nonneg _⟩, fun _ _ h => nomatch h⟩
  bytes := fun _ _ => by simp [setup, Server.unsent, SendFdBuff.pending, SendFdBuff.slice,
    SendFdBuff.zero]
  conserved := by simp [Conserved, setup, MainPc.batch, DispatchPc.nodes]

theorem HandoffInv.step {cfg : Config} {s s' : Server} {a : Act} (hi : HandoffInv cfg s)
    (h : next cfg s a = some s') : HandoffInv cfg s' := by
  have he := next_effect hi.registered h
  exact ⟨he.registered hi.registered, he.nodesOk hi.nodes, he.buffersOk hi.buffers,
    he.bytesInv hi.buffers hi.bytes, he.conserved hi.conserved⟩

theorem reachable_inv {cfg : Config} {room : ℕ → ℕ} {s : Server}
    (h : Reachable (next cfg) (setup cfg room) s) : HandoffInv cfg s :=
  h.invariant (fun _ _ _ hs hstep => hs.step hstep) (setup_inv cfg room)

/-- A client connects while the worker's socket has room for two bytes; then the worker reads. -/
def shortSendActs : List Act :=
  [.epollWait [⟨3, .inEt⟩], .mainStep, .accept (.fd 6), .accept (.error .EAGAIN), .push, .mainStep,
    .mainStep, .detach, .append, .send 2, .send (-1), .settle, .drain 4 100]

def shortSendServer : Server :=
  (exec (next twoCpus) (setup twoCpus fun _ => 2) shortSendActs).get rfl

theorem shortSendServer_reachable :
    Reachable (next twoCpus) (setup twoCpus fun _ => 2) shortSendServer :=
  .of_exec (Option.some_get _).symm

/-- No accepted descriptor is lost or duplicated on the way to a worker, in any interleaving and
for any pattern of `accept` and `send` results. -/
theorem handoff_conserves_descriptors (cfg : Config) (room : ℕ → ℕ) (s : Server)
    (h : Reachable (next cfg) (setup cfg room) s) :
    (s.accepted : Multiset ℕ) = (s.main.batch : Multiset ℕ) +
        (s.acceptedFDlist.flatMap AcceptedFD.descriptors : List ℕ) +
        (s.dispatch.nodes.flatMap AcceptedFD.descriptors : List ℕ) +
        ∑ i ∈ cfg.workers, (decodeInts (s.written (cfg.peer i) ++ s.unsent (cfg.peer i)) :
          Multiset ℕ) ∧
      ∀ i ∈ cfg.workers, s.written (cfg.peer i) ++ s.unsent (cfg.peer i) =
        (s.assigned i).flatMap (·.acceptedFdBuff) := by
  have hi := reachable_inv h
  have hbytes : ∀ i ∈ cfg.workers, s.written (cfg.peer i) ++ s.unsent (cfg.peer i) =
      (s.assigned i).flatMap (·.acceptedFdBuff) :=
    fun i hmem => hi.bytes i ((cfg.mem_workers i).mp hmem)
  refine ⟨?_, hbytes⟩
  have hsum : ∑ i ∈ cfg.workers, (decodeInts (s.written (cfg.peer i) ++ s.unsent (cfg.peer i)) :
      Multiset ℕ) = ∑ i ∈ cfg.workers, ((s.assigned i).flatMap AcceptedFD.descriptors :
        Multiset ℕ) := by
    apply Finset.sum_congr rfl
    intro i hmem
    rw [hbytes i hmem, decodeInts_nodes _ (hi.nodes.assigned i)]
  rw [hsum]
  exact hi.conserved

theorem handoff_conserves_descriptors_short_send :
    shortSendServer.accepted = [6] ∧ shortSendServer.written 4 = [6, 0] ∧
      shortSendServer.unsent 4 = [0, 0] ∧
      shortSendServer.written 4 ++ shortSendServer.unsent 4 =
        (shortSendServer.assigned 1).flatMap (·.acceptedFdBuff) :=
  ⟨rfl, rfl, rfl, (handoff_conserves_descriptors twoCpus _ shortSendServer
    shortSendServer_reachable).2 1 (by decide)⟩

end LinuxPrograms.C1000k
