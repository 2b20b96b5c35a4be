import LinuxPrograms.C1000kArmed

/-! The correspondence of clients and timers over whole runs of the workers: what each function
of worker.cc and process_event.cc keeps, then what a step keeps, then every run. -/
namespace LinuxPrograms.C1000k
open Lib

variable [LinearOrder VoidPtr]

/-- The epoll sets are disjoint sets of open descriptors, each worker has its end of the
socketpair, every other descriptor it has is a client's, and its timers are its clients'. -/
structure WorldOk (cfg : WorkerConfig) (s : World) : Prop where
  fd_eq : ∀ i, (s.gFDITEM i).fd = i
  opened : ∀ w, ∀ fd ∈ s.interest w, s.opened fd = true
  disjoint : ∀ w w' fd, fd ∈ s.interest w → fd ∈ s.interest w' → w = w'
  nodup : ∀ w, (s.interest w).Nodup
  order : ∀ w, s.interest w ≠ [] →
    cfg.orderfd w ∈ s.interest w ∧ (s.gFDITEM (cfg.orderfd w)).IsOrder
  client : ∀ w, ∀ fd ∈ s.clients cfg w, (s.gFDITEM fd).IsClient
  armed : ∀ w, (s.timer w).Arms (s.clients cfg w)

namespace WorldOk

variable {cfg : WorkerConfig} {s : World}

theorem mem_clients {w fd : ℕ} : fd ∈ s.clients cfg w ↔ fd ∈ s.interest w ∧ fd ≠ cfg.orderfd w := by
  simp [World.clients]

theorem item_cases (h : WorldOk cfg s) {w fd : ℕ} (hfd : fd ∈ s.interest w) :
    fd = cfg.orderfd w ∧ (s.gFDITEM fd).IsOrder ∨
      fd ∈ s.clients cfg w ∧ (s.gFDITEM fd).IsClient := by
  by_cases heq : fd = cfg.orderfd w
  · have horder := (h.order w (List.ne_nil_of_mem hfd)).2
    rw [← heq] at horder
    exact Or.inl ⟨heq, horder⟩
  · have hmem := mem_clients.mpr ⟨hfd, heq⟩
    exact Or.inr ⟨hmem, h.client w fd hmem⟩

/-- Only the function pointers and the number of an item matter. -/
theorem setItem (h : WorldOk cfg s) {fd : ℕ} {p : FDITEM} (hp : p.funs = (s.gFDITEM fd).funs) :
    WorldOk cfg (s.setItem fd p) := by
  have hfuns : ∀ i, ((s.setItem fd p).gFDITEM i).funs = (s.gFDITEM i).funs := by
    intro i
    by_cases hi : i = fd
    · subst hi
      simp only [World.setItem, Function.update_self]
      exact hp
    · simp only [World.setItem, Function.update_of_ne hi]
  refine ⟨fun i => ?_, h.opened, h.disjoint, h.nodup, fun w hw => ?_, fun w i hi => ?_, h.armed⟩
  · have hi := hfuns i
    simp only [FDITEM.funs, Prod.mk.injEq] at hi
    exact hi.2.2.2.2.trans (h.fd_eq i)
  · obtain ⟨hmem, horder⟩ := h.order w hw
    exact ⟨hmem, horder.congr (hfuns _)⟩
  · exact (h.client w i hi).congr (hfuns i)

theorem setActiveclose (h : WorldOk cfg s) (fd : ℕ) : WorldOk cfg (s.setActiveclose fd) :=
  h.setItem rfl

/-- Arming changes one worker's timers. -/
theorem setTimer (h : WorldOk cfg s) {w : ℕ} {T : TIMER VoidPtr} (hT : T.Arms (s.clients cfg w)) :
    WorldOk cfg (s.setTimer w T) := by
  refine ⟨h.fd_eq, h.opened, h.disjoint, h.nodup, h.order, h.client, fun w' => ?_⟩
  by_cases hw : w' = w
  · subst hw
    simp only [World.setTimer, Function.update_self]
    exact hT
  · simp only [World.setTimer, Function.update_of_ne hw]
    exact h.armed w'

theorem clientReadfun (h : WorldOk cfg s) (fd : ℕ) (reads : List ℤ) :
    WorldOk cfg (clientReadfun fd reads s).2 ∧
      (C1000k.clientReadfun fd reads s).2.interest = s.interest := by
  induction reads with
  | nil => exact ⟨h, rfl⟩
  | cons len reads ih =>
    unfold C1000k.clientReadfun
    split
    · exact ⟨h, rfl⟩
    · split
      · exact ⟨h.setActiveclose fd, rfl⟩
      · exact ih

theorem countSended (h : WorldOk cfg s) (fd : ℕ) (len : ℤ) :
    WorldOk cfg (countSended fd len s) ∧
      (C1000k.countSended fd len s).interest = s.interest ∧
      (C1000k.countSended fd len s).timer = s.timer := by
  unfold C1000k.countSended
  dsimp only
  split
  · exact ⟨h.setActiveclose fd, rfl, rfl⟩
  · split
    · exact ⟨h.setItem rfl, rfl, rfl⟩
    · exact ⟨h, rfl, rfl⟩

/-- The kernel opens a descriptor. -/
theorem openFd (h : WorldOk cfg s) (fd : ℕ) :
    WorldOk cfg { s with opened := Function.update s.opened fd true } := by
  refine ⟨h.fd_eq, fun w i hi => ?_, h.disjoint, h.nodup, h.order, h.client, h.armed⟩
  by_cases heq : i = fd
  · subst heq
    exact Function.update_self _ _ _
  · simp only [Function.update_of_ne heq]
    exact h.opened w i hi

/-- The world after descriptor `fd` has become a client of worker `w`. -/
def added (s : World) (w fd : ℕ) (t : TimeValue) : World :=
  { s with
    gFDITEM := Function.update s.gFDITEM fd (s.gFDITEM fd).client
    interest := Function.update s.interest w (s.interest w ++ [fd])
    timer := Function.update s.timer w ((s.timer w).addTimer (.item fd) t) }

theorem mem_added {w fd : ℕ} {t : TimeValue} {w' i : ℕ} :
    i ∈ (added s w fd t).interest w' ↔ i ∈ s.interest w' ∨ w' = w ∧ i = fd := by
  by_cases hw : w' = w
  · subst hw
    simp [added]
  · simp [added, hw]

theorem added_item {w fd : ℕ} {t : TimeValue} {i : ℕ} (hi : i ≠ fd) :
    (added s w fd t).gFDITEM i = s.gFDITEM i :=
  Function.update_of_ne hi _ _

theorem added_arms (h : WorldOk cfg s) {w fd : ℕ} (t : TimeValue) (hne : fd ≠ cfg.orderfd w)
    (w' : ℕ) : ((added s w fd t).timer w').Arms ((added s w fd t).clients cfg w') := by
  by_cases hw : w' = w
  · subst hw
    have hclients : (added s w' fd t).clients cfg w' = s.clients cfg w' ++ [fd] := by
      simp [World.clients, added, hne]
    rw [hclients]
    simp only [added, Function.update_self]
    exact (h.armed w').addTimer fd t
  · simp only [added, World.clients, Function.update_of_ne hw]
    exact h.armed w'

/-- A descriptor that is open and registered nowhere becomes a client. -/
theorem add (h : WorldOk cfg s) {w fd : ℕ} (t : TimeValue) (hw : s.interest w ≠ [])
    (hopen : s.opened fd = true) (hnew : ∀ w', fd ∉ s.interest w') :
    WorldOk cfg (added s w fd t) := by
  have hold : ∀ {w' i}, i ∈ s.interest w' → i ≠ fd := fun hi heq => hnew _ (heq ▸ hi)
  have hne : fd ≠ cfg.orderfd w := (hold (h.order w hw).1).symm
  refine ⟨fun i => ?_, fun w' i hi => ?_, fun w₁ w₂ i h₁ h₂ => ?_, fun w' => ?_, fun w' hw' => ?_,
    fun w' i hi => ?_, h.added_arms t hne⟩
  · by_cases hi : i = fd
    · subst hi
      simp only [added, Function.update_self]
      exact h.fd_eq i
    · rw [added_item hi]
      exact h.fd_eq i
  · rcases mem_added.mp hi with hi | ⟨_, rfl⟩
    · exact h.opened w' i hi
    · exact hopen
  · rcases mem_added.mp h₁ with hi₁ | ⟨rfl, rfl⟩ <;> rcases mem_added.mp h₂ with hi₂ | ⟨rfl, heq⟩
    · exact h.disjoint w₁ w₂ i hi₁ hi₂
    · exact (hold hi₁ heq).elim
    · exact (hnew w₂ hi₂).elim
    · rfl
  · by_cases hw' : w' = w
    · subst hw'
      simp only [added, Function.update_self]
      exact (h.nodup w').append (List.nodup_singleton fd)
        (List.disjoint_singleton.mpr (hnew w'))
    · simp only [added, Function.update_of_ne hw']
      exact h.nodup w'
  · have hne' : s.interest w' ≠ [] := by
      by_cases heq : w' = w
      · exact heq ▸ hw
      · simpa only [added, Function.update_of_ne heq] using hw'
    obtain ⟨hmem, horder⟩ := h.order w' hne'
    rw [added_item (hold hmem)]
    exact ⟨mem_added.mpr (Or.inl hmem), horder⟩
  · obtain ⟨hi, horder⟩ := mem_clients.mp hi
    rcases mem_added.mp hi with hi | ⟨_, rfl⟩
    · rw [added_item (hold hi)]
      exact h.client w' i (mem_clients.mpr ⟨hi, horder⟩)
    · simp only [added, Function.update_self]
      exact FDITEM.client_isClient _

/-- One descriptor registered with `w`, and with no other worker. -/
theorem registerConnection (h : WorldOk cfg s) {w fd : ℕ} {t : TimeValue} {s' : World}
    (hw : s.interest w ≠ []) (hother : ∀ w', w' ≠ w → fd ∉ s.interest w')
    (hreg : registerConnection w t fd s = .ok s') :
    WorldOk cfg s' ∧ s'.interest = Function.update s.interest w (s.interest w ++ [fd]) := by
  obtain ⟨hopen, _, hnew, rfl⟩ := registerConnection_eq_ok.mp hreg
  refine ⟨h.add _ hw hopen fun w' => ?_, rfl⟩
  by_cases hw' : w' = w
  · exact hw' ▸ hnew
  · exact hother w' hw'

/-- A call of `readfun_getConnections` whose descriptors no other worker has. -/
theorem registersAll (h : WorldOk cfg s) {w : ℕ} {fds : List ℕ} {s' : World}
    (hw : s.interest w ≠ []) (hother : ∀ fd ∈ fds, ∀ w', w' ≠ w → fd ∉ s.interest w')
    (hreg : RegistersAll (C1000k.registerConnection w) fds s s') :
    WorldOk cfg s' ∧ ∀ w', s.interest w' ⊆ s'.interest w' := by
  induction fds generalizing s with
  | nil =>
    cases hreg
    exact ⟨h, fun _ => List.Subset.refl _⟩
  | cons fd fds ih =>
    obtain ⟨t, s₁, hone, hrest⟩ := hreg
    obtain ⟨h₁, hinterest⟩ := h.registerConnection hw (hother fd List.mem_cons_self) hone
    have hgrow : ∀ w', s.interest w' ⊆ s₁.interest w' := by
      intro w' i hi
      rw [hinterest]
      by_cases hw' : w' = w
      · subst hw'
        rw [Function.update_self]
        exact List.mem_append_left _ hi
      · rwa [Function.update_of_ne hw']
    have hsame : ∀ w', w' ≠ w → s₁.interest w' = s.interest w' := by
      intro w' hw'
      rw [hinterest, Function.update_of_ne hw']
    have hw₁ : s₁.interest w ≠ [] := by
      rw [hinterest, Function.update_self]
      exact List.append_ne_nil_of_right_ne_nil _ (List.cons_ne_nil _ _)
    have hother₁ : ∀ i ∈ fds, ∀ w', w' ≠ w → i ∉ s₁.interest w' := by
      intro i hi w' hw'
      rw [hsame w' hw']
      exact hother i (List.mem_cons_of_mem _ hi) w' hw'
    obtain ⟨h', hgrow'⟩ := ih h₁ hw₁ hother₁ hrest
    exact ⟨h', fun w' => List.Subset.trans (hgrow w') (hgrow' w')⟩

theorem mem_close {fd w i : ℕ} : i ∈ (s.close fd).interest w ↔ i ∈ s.interest w ∧ i ≠ fd := by
  simp [World.close]

/-- The world after client `fd` of worker `w` has been closed. -/
theorem clientClosefun (h : WorldOk cfg s) {w fd : ℕ} (hfd : fd ∈ s.clients cfg w) :
    WorldOk cfg (clientClosefun w fd s).2 ∧
      ∀ w' i, i ≠ fd → i ∈ s.interest w' → i ∈ (C1000k.clientClosefun w fd s).2.interest w' := by
  obtain ⟨hin, hne⟩ := mem_clients.mp hfd
  have hold : ∀ {w' i}, i ∈ (C1000k.clientClosefun w fd s).2.interest w' ↔
      i ∈ s.interest w' ∧ i ≠ fd := mem_close
  have hitem : ∀ i, i ≠ fd → (C1000k.clientClosefun w fd s).2.gFDITEM i = s.gFDITEM i :=
    fun i hi => Function.update_of_ne hi _ _
  refine ⟨⟨fun i => ?_, fun w' i hi => ?_, fun w₁ w₂ i h₁ h₂ => ?_, fun w' => ?_, fun w' hw' => ?_,
    fun w' i hi => ?_, fun w' => ?_⟩, fun w' i hi hmem => hold.mpr ⟨hmem, hi⟩⟩
  · by_cases hi : i = fd
    · subst hi
      simp only [C1000k.clientClosefun, World.close, World.setItem, Function.update_self]
      exact h.fd_eq i
    · rw [hitem i hi]
      exact h.fd_eq i
  · obtain ⟨hmem, hi⟩ := hold.mp hi
    simp only [C1000k.clientClosefun, World.close, Function.update_of_ne hi]
    exact h.opened w' i hmem
  · exact h.disjoint w₁ w₂ i (hold.mp h₁).1 (hold.mp h₂).1
  · exact (h.nodup w').filter _
  · obtain ⟨i, hi⟩ := List.exists_mem_of_ne_nil _ hw'
    obtain ⟨hmem, horder⟩ := h.order w' (List.ne_nil_of_mem (hold.mp hi).1)
    -- the descriptor is a client of `w`, so it is no worker's end of a socketpair
    have hne' : cfg.orderfd w' ≠ fd := by
      intro heq
      have hww := h.disjoint w' w fd (heq ▸ hmem) hin
      rw [← hww] at hne
      exact hne heq.symm
    rw [hitem _ hne']
    exact ⟨hold.mpr ⟨hmem, hne'⟩, horder⟩
  · obtain ⟨hi, horder⟩ := mem_clients.mp hi
    obtain ⟨hmem, hi⟩ := hold.mp hi
    rw [hitem i hi]
    exact h.client w' i (mem_clients.mpr ⟨hmem, horder⟩)
  · have hclients : (C1000k.clientClosefun w fd s).2.clients cfg w' =
        (s.clients cfg w').filter (· ≠ fd) := by
      change ((s.interest w').filter _).filter _ = ((s.interest w').filter _).filter _
      rw [List.filter_comm]
    rw [hclients]
    by_cases hw' : w' = w
    · subst hw'
      simp only [C1000k.clientClosefun, World.close, World.setItem, World.setTimer,
        Function.update_self]
      exact (h.armed w').removeItem fd
    · have hsame : (s.clients cfg w').filter (· ≠ fd) = s.clients cfg w' := by
        apply List.filter_eq_self.mpr
        intro i hi
        have hi' := (mem_clients.mp hi).1
        exact decide_eq_true fun heq => hw' (h.disjoint w' w fd (heq ▸ hi') hin)
      rw [hsame]
      simp only [C1000k.clientClosefun, World.close, World.setItem, World.setTimer,
        Function.update_of_ne hw']
      exact h.armed w'

/-- A test of `process_one_event` does nothing, or calls the callback and perhaps marks the
item. -/
theorem callStage_cases {w fd : ℕ} {io : Io} {fun? : FDITEM → Option Callback} {reported : Bool}
    {s' : World} (h : callStage w io fun? reported fd s = .ok s') :
    s' = s ∨ ∃ cb r s₁, fun? (s.gFDITEM fd) = some cb ∧ callFromWorker w io cb fd s = .ok (r, s₁) ∧
      (s' = s₁ ∨ s' = s₁.setActiveclose fd) := by
  unfold callStage at h
  split at h
  · split at h
    · rename_i cb hcb
      split at h
      · rename_i r s₁ hcall
        refine Or.inr ⟨cb, r, s₁, hcb, hcall, ?_⟩
        cases h
        split
        · exact Or.inr rfl
        · exact Or.inl rfl
      · cases h
    · cases h
      exact Or.inl rfl
  · cases h
    exact Or.inl rfl

/-- A callback that keeps the invariant keeps it through the test that calls it. -/
theorem callStage (h : WorldOk cfg s) {w fd : ℕ} {io : Io} {fun? : FDITEM → Option Callback}
    {reported : Bool} {s' : World}
    (hcall : ∀ cb r s₁, fun? (s.gFDITEM fd) = some cb → callFromWorker w io cb fd s = .ok (r, s₁) →
      WorldOk cfg s₁ ∧ ∀ w', s.interest w' ⊆ s₁.interest w')
    (hstage : callStage w io fun? reported fd s = .ok s') :
    WorldOk cfg s' ∧ ∀ w', s.interest w' ⊆ s'.interest w' := by
  rcases callStage_cases hstage with rfl | ⟨cb, r, s₁, hcb, hres, hs'⟩
  · exact ⟨h, fun _ => List.Subset.refl _⟩
  · obtain ⟨h₁, hgrow⟩ := hcall cb r s₁ hcb hres
    rcases hs' with rfl | rfl
    · exact ⟨h₁, hgrow⟩
    · exact ⟨h₁.setActiveclose fd, hgrow⟩

/-- The read test: a client's reads, or descriptors handed over. -/
theorem readStage (h : WorldOk cfg s) {w fd : ℕ} {io : Io} {reported : Bool} {s' : World}
    (hfd : fd ∈ s.interest w)
    (hhand : ∀ i ∈ decodeInts (received io.recvs), ∀ w', i ∉ s.interest w')
    (hstage : C1000k.callStage w io (·.mReadfun) reported fd s = .ok s') :
    WorldOk cfg s' ∧ ∀ w', s.interest w' ⊆ s'.interest w' := by
  refine h.callStage (fun cb r s₁ hcb hres => ?_) hstage
  rcases h.item_cases hfd with ⟨_, horder⟩ | ⟨_, hclient⟩
  · cases hcb.symm.trans horder.readfun
    obtain ⟨s₂, hread, hs₂⟩ := map_eq_ok.mp hres
    cases hs₂
    exact h.registersAll (List.ne_nil_of_mem hfd) (fun i hi w' _ => hhand i hi w')
      (recvLoop_ok (by decide) hread)
  · cases hcb.symm.trans hclient.readfun
    have hs₁ : s₁ = (C1000k.clientReadfun fd io.reads s).2 :=
      (congrArg Prod.snd (Except.ok.inj hres)).symm
    obtain ⟨h₁, hinterest⟩ := h.clientReadfun fd io.reads
    rw [hs₁]
    exact ⟨h₁, fun w' => hinterest ▸ List.Subset.refl _⟩

/-- The write test: only clients have a write callback. -/
theorem writeStage (h : WorldOk cfg s) {w fd : ℕ} {io : Io} {reported : Bool} {s' : World}
    (hfd : fd ∈ s.interest w)
    (hstage : C1000k.callStage w io (·.mWritefun) reported fd s = .ok s') :
    WorldOk cfg s' ∧ ∀ w', s.interest w' ⊆ s'.interest w' := by
  refine h.callStage (fun cb r s₁ hcb hres => ?_) hstage
  rcases h.item_cases hfd with ⟨_, horder⟩ | ⟨_, hclient⟩
  · cases hcb.symm.trans horder.writefun
  · cases hcb.symm.trans hclient.writefun
    cases hres
    obtain ⟨h₁, hinterest, _⟩ := h.countSended fd io.write
    exact ⟨h₁, fun w' => hinterest ▸ List.Subset.refl _⟩

theorem hangupStage (h : WorldOk cfg s) (ev : Event) :
    WorldOk cfg (hangupStage ev s) ∧ (C1000k.hangupStage ev s).interest = s.interest := by
  unfold C1000k.hangupStage
  split
  · exact ⟨h.setActiveclose ev.fd, rfl⟩
  · exact ⟨h, rfl⟩

/-- The end of `process_one_event` takes nothing but the event's descriptor away. -/
theorem closeStage (h : WorldOk cfg s) {w fd : ℕ} {io : Io} {s' : World} (hfd : fd ∈ s.interest w)
    (hclose : closeStage w io fd s = .ok s') :
    WorldOk cfg s' ∧ ∀ w' i, i ≠ fd → i ∈ s.interest w' → i ∈ s'.interest w' := by
  unfold C1000k.closeStage at hclose
  split at hclose
  · have h₁ := h.setTimer (w := w) ((h.armed w).removeCell fd)
    dsimp only at hclose
    rcases h₁.item_cases hfd with ⟨_, horder⟩ | ⟨hmem, hclient⟩
    · rw [horder.closefun] at hclose
      cases hclose
    · rw [hclient.closefun] at hclose
      cases hclose
      exact h₁.clientClosefun hmem
  · cases hclose
    exact ⟨h, fun _ _ _ hi => hi⟩

/-- One event of a worker: all the other descriptors stay registered where they were. -/
theorem processOneEvent (h : WorldOk cfg s) {w : ℕ} {io : Io} {ev : Event} {s' : World}
    (hfd : ev.fd ∈ s.interest w)
    (hhand : ∀ i ∈ decodeInts (received io.recvs), ∀ w', i ∉ s.interest w')
    (hev : processOneEvent w io ev s = .ok s') :
    WorldOk cfg s' ∧ ∀ w' i, i ≠ ev.fd → i ∈ s.interest w' → i ∈ s'.interest w' := by
  unfold C1000k.processOneEvent at hev
  obtain ⟨s₁, hread, hev⟩ := bind_eq_ok.mp hev
  obtain ⟨s₂, hwrite, hclose⟩ := bind_eq_ok.mp hev
  obtain ⟨h₁, hgrow₁⟩ := h.readStage hfd hhand hread
  obtain ⟨h₂, hgrow₂⟩ := h₁.writeStage (hgrow₁ w hfd) hwrite
  obtain ⟨h₃, hinterest⟩ := h₂.hangupStage ev
  have hgrow : ∀ w', s.interest w' ⊆ (C1000k.hangupStage ev s₂).interest w' := by
    intro w'
    rw [hinterest]
    exact List.Subset.trans (hgrow₁ w') (hgrow₂ w')
  obtain ⟨h', hkeep⟩ := h₃.closeStage (hgrow w hfd) hclose
  exact ⟨h', fun w' i hi hmem => hkeep w' i hi (hgrow w' hmem)⟩

/-- One round of the loop over the timers calls the callback of a client, or ends the loop. -/
theorem timedTask_cases (h : WorldOk cfg s) (w : ℕ) (t : TimeValue) (len : ℤ) :
    timedTask w t len s = .ok none ∨
      ∃ fd ∈ s.clients cfg w, ∃ T, (s.timer w).getTimer t = some (some (.item fd), T) ∧
        (∀ now, (T.addTimer (.item fd) now).Arms (s.clients cfg w)) ∧
        timedTask w t len s = .ok (some (clientTimeoutfun w fd t len (s.setTimer w T))) := by
  rcases (h.armed w).getTimer t with ⟨T, hget⟩ | ⟨fd, hfd, T, hget, harms⟩
  · refine Or.inl ?_
    unfold timedTask
    rw [hget]
  · refine Or.inr ⟨fd, hfd, T, hget, harms, ?_⟩
    unfold timedTask
    rw [hget]
    dsimp only
    rw [(h.client w fd hfd).timeoutfun, h.fd_eq fd]

/-- The callback arms the timer again, whatever `write` returned. -/
theorem clientTimeoutfun_setTimer (w fd : ℕ) (t : TimeValue) (len : ℤ) (T : TIMER VoidPtr) :
    clientTimeoutfun w fd t len (s.setTimer w T) =
      (C1000k.countSended fd len s).setTimer w (T.addTimer (.item fd) (t+10*1000)) := by
  have hcomm : C1000k.countSended fd len (s.setTimer w T) =
      (C1000k.countSended fd len s).setTimer w T := by
    unfold C1000k.countSended
    dsimp only [World.setTimer]
    split
    · rfl
    · split <;> rfl
  unfold clientTimeoutfun
  rw [hcomm]
  simp only [World.setTimer, Function.update_self, Function.update_idem]

theorem timedTask (h : WorldOk cfg s) {w : ℕ} {t : TimeValue} {len : ℤ} {s' : World}
    (htask : timedTask w t len s = .ok (some s')) :
    WorldOk cfg s' ∧ s'.interest = s.interest := by
  rcases h.timedTask_cases w t len with hnone | ⟨fd, hfd, T, hget, harms, hsome⟩
  · cases hnone.symm.trans htask
  · cases hsome.symm.trans htask
    rw [clientTimeoutfun_setTimer]
    obtain ⟨h₁, hinterest, _⟩ := h.countSended fd len
    have hclients : (C1000k.countSended fd len s).clients cfg w = s.clients cfg w := by
      rw [World.clients, hinterest]
      rfl
    exact ⟨h₁.setTimer (hclients ▸ harms _), hinterest⟩

end WorldOk

end LinuxPrograms.C1000k
