import LinuxPrograms.C1000kTimedPhase

/-! What the functions of worker.cc and process_event.cc leave alone. A callback changes the item,
the registration and the timers of its own descriptor, and `readfun_getConnections` those of the
descriptors it registers. -/
namespace LinuxPrograms.C1000k
open Lib

variable [LinearOrder VoidPtr]

/-- Every item has its index as `fd`, as main sets it. -/
def World.Numbered (s : World) : Prop := ∀ i, (s.gFDITEM i).fd = i

theorem World.Numbered.setItem {s : World} (hs : s.Numbered) {i : ℕ} {p : FDITEM}
    (hp : p.fd = (s.gFDITEM i).fd) : (s.setItem i p).Numbered := by
  intro j
  by_cases hj : j = i
  · subst hj
    simp only [World.setItem, Function.update_self]
    exact hp.trans (hs j)
  · simp only [World.setItem, Function.update_of_ne hj]
    exact hs j

/-- Worker `w` has left descriptor `fd` alone, and has armed no timer for it. -/
structure Leaves (w fd : ℕ) (s s' : World) : Prop where
  item : s'.gFDITEM fd = s.gFDITEM fd
  opened : s'.opened fd = s.opened fd
  interest : ∀ w', fd ∈ s'.interest w' ↔ fd ∈ s.interest w'
  numbered : s.Numbered → s'.Numbered
  timers : ∀ armed, (s.timer w).Represents armed → ∃ armed', (s'.timer w).Represents armed' ∧
    ∀ t, (t, VoidPtr.item fd) ∈ armed' → (t, VoidPtr.item fd) ∈ armed

namespace Leaves

variable {w fd : ℕ} {s s' s'' : World}

theorem refl (s : World) : Leaves w fd s s :=
  ⟨rfl, rfl, fun _ => Iff.rfl, id, fun armed hT => ⟨armed, hT, fun _ => id⟩⟩

theorem trans (h : Leaves w fd s s') (h' : Leaves w fd s' s'') : Leaves w fd s s'' where
  item := h'.item.trans h.item
  opened := h'.opened.trans h.opened
  interest := fun w' => (h'.interest w').trans (h.interest w')
  numbered := fun hs => h'.numbered (h.numbered hs)
  timers := by
    intro armed hT
    obtain ⟨armed', hT', hsub⟩ := h.timers armed hT
    obtain ⟨armed'', hT'', hsub'⟩ := h'.timers armed' hT'
    exact ⟨armed'', hT'', fun t ht => hsub t (hsub' t ht)⟩

theorem setItem {i : ℕ} (hne : fd ≠ i) {p : FDITEM} (hp : p.fd = (s.gFDITEM i).fd) :
    Leaves w fd s (s.setItem i p) :=
  ⟨Function.update_of_ne hne _ _, rfl, fun _ => Iff.rfl, fun hs => hs.setItem hp,
    fun armed hT => ⟨armed, hT, fun _ => id⟩⟩

theorem setActiveclose {i : ℕ} (hne : fd ≠ i) : Leaves w fd s (s.setActiveclose i) :=
  setItem hne rfl

theorem setTimer {T : TIMER VoidPtr}
    (hT : ∀ armed, (s.timer w).Represents armed → ∃ armed', T.Represents armed' ∧
      ∀ t, (t, VoidPtr.item fd) ∈ armed' → (t, VoidPtr.item fd) ∈ armed) :
    Leaves w fd s (s.setTimer w T) := by
  refine ⟨rfl, rfl, fun _ => Iff.rfl, id, fun armed harmed => ?_⟩
  simp only [World.setTimer, Function.update_self]
  exact hT armed harmed

theorem removeTimer (x : VoidPtr) : Leaves w fd s (s.setTimer w ((s.timer w).removeTimer x)) :=
  setTimer fun _ hT => ⟨_, hT.removeTimer x, fun _ ht => (List.mem_filter.mp ht).1⟩

theorem countSended {i : ℕ} (hne : fd ≠ i) (len : ℤ) : Leaves w fd s (countSended i len s) := by
  unfold C1000k.countSended
  dsimp only
  split
  · exact setActiveclose hne
  · split
    · exact setItem hne rfl
    · exact refl s

theorem clientReadfun {i : ℕ} (hne : fd ≠ i) (reads : List ℤ) :
    Leaves w fd s (clientReadfun i reads s).2 := by
  induction reads with
  | nil => exact refl s
  | cons len reads ih =>
    unfold C1000k.clientReadfun
    split
    · exact refl s
    · split
      · exact setActiveclose hne
      · exact ih

theorem registerConnection {i : ℕ} (hne : fd ≠ i) {t : TimeValue}
    (h : registerConnection w t i s = .ok s') : Leaves w fd s s' := by
  obtain ⟨-, -, -, rfl⟩ := registerConnection_eq_ok.mp h
  have hnumbered (hs : s.Numbered) : (s.setItem i (s.gFDITEM i).client).Numbered := hs.setItem rfl
  refine ⟨Function.update_of_ne hne _ _, rfl, fun w' => ?_, hnumbered, fun armed hT => ?_⟩
  · by_cases hw : w' = w
    · subst hw
      simp [hne]
    · simp only [Function.update_of_ne hw]
  · simp only [Function.update_self]
    refine ⟨_, hT.addTimer _ _, fun t ht => ?_⟩
    -- the new timer is of another item
    rcases List.mem_append.mp ht with ht | ht
    · exact ht
    · cases List.mem_singleton.mp ht
      exact absurd rfl hne

end Leaves

/-- The descriptor can not be registered with worker `w`: it is closed, or it is registered. -/
def World.Settled (s : World) (w fd : ℕ) : Prop := s.opened fd = false ∨ fd ∈ s.interest w

namespace Leaves

variable {w fd : ℕ} {s s' : World}

theorem settled (h : Leaves w fd s s') (hs : s.Settled w fd) : s'.Settled w fd :=
  hs.imp (fun hclosed => h.opened.trans hclosed) fun hmem => (h.interest w).mpr hmem

/-- The descriptors handed over to the worker are others. -/
theorem registersAll {fds : List ℕ} (hs : s.Settled w fd)
    (h : RegistersAll (C1000k.registerConnection w) fds s s') : Leaves w fd s s' := by
  induction fds generalizing s with
  | nil =>
    cases h
    exact refl _
  | cons i fds ih =>
    obtain ⟨t, s₁, hone, hrest⟩ := h
    have hne : fd ≠ i := by
      rintro rfl
      obtain ⟨hopen, -, hnew, -⟩ := registerConnection_eq_ok.mp hone
      rcases hs with hclosed | hmem
      · rw [hopen] at hclosed
        cases hclosed
      · exact hnew hmem
    have hleaves : Leaves w fd s s₁ := registerConnection hne hone
    exact hleaves.trans (ih (hleaves.settled hs) hrest)

theorem clientClosefun {i : ℕ} (hne : fd ≠ i) : Leaves w fd s (clientClosefun w i s).2 := by
  have htimer : Leaves w fd s (s.setTimer w ((s.timer w).removeTimer (.item i))) := removeTimer _
  have hclose (s : World) : Leaves w fd s (s.close i) :=
    ⟨rfl, Function.update_of_ne hne _ _, fun w' => WorldOk.mem_close.trans (and_iff_left hne), id,
      fun armed hT => ⟨armed, hT, fun _ => id⟩⟩
  exact (htimer.trans (setItem (p := ((s.gFDITEM i).init)) hne rfl)).trans (hclose _)

theorem callFromWorker {i : ℕ} (hne : fd ≠ i) (hs : s.Settled w fd) {io : Io} {cb : Callback}
    {r : ℤ} (h : callFromWorker w io cb i s = .ok (r, s')) : Leaves w fd s s' := by
  unfold C1000k.callFromWorker at h
  cases cb with
  | readfunGetConnections =>
    obtain ⟨s₁, hread, hs₁⟩ := map_eq_ok.mp h
    cases hs₁
    exact registersAll hs (recvLoop_ok (by decide) hread)
  | clientReadfun =>
    have hs' : (C1000k.clientReadfun i io.reads s).2 = s' :=
      congrArg Prod.snd (Except.ok.inj h)
    rw [← hs']
    exact clientReadfun hne io.reads
  | clientWritefun =>
    cases h
    exact countSended hne io.write
  | clientClosefun =>
    cases h
    exact clientClosefun hne
  | acceptReadfun => cases h
  | fdsendWritefun => cases h

theorem callStage {i : ℕ} (hne : fd ≠ i) (hs : s.Settled w fd) {io : Io}
    {fun? : FDITEM → Option Callback} {reported : Bool}
    (h : callStage w io fun? reported i s = .ok s') : Leaves w fd s s' := by
  rcases WorldOk.callStage_cases h with rfl | ⟨cb, r, s₁, -, hcall, rfl | rfl⟩
  · exact refl _
  · exact callFromWorker hne hs hcall
  · exact (callFromWorker hne hs hcall).trans (setActiveclose hne)

/-- One event of another descriptor. -/
theorem processOneEvent {io : Io} {ev : Event} (hne : fd ≠ ev.fd) (hs : s.Settled w fd)
    (h : processOneEvent w io ev s = .ok s') : Leaves w fd s s' := by
  unfold C1000k.processOneEvent at h
  obtain ⟨s₁, hread, h⟩ := bind_eq_ok.mp h
  obtain ⟨s₂, hwrite, h⟩ := bind_eq_ok.mp h
  have h₁ : Leaves w fd s s₁ := callStage hne hs hread
  have h₂ : Leaves w fd s s₂ := h₁.trans (callStage hne (h₁.settled hs) hwrite)
  have h₃ : Leaves w fd s (hangupStage ev s₂) := by
    unfold hangupStage
    split
    · exact h₂.trans (setActiveclose hne)
    · exact h₂
  unfold closeStage at h
  split at h
  · dsimp only at h
    have h₄ := h₃.trans (removeTimer (.cell ev.fd))
    split at h
    · rename_i cb hcb
      obtain ⟨⟨r, s₅⟩, hcall, rfl⟩ := map_eq_ok.mp h
      exact h₄.trans (callFromWorker hne (h₄.settled hs) hcall)
    · cases h
  · cases h
    exact h₃

end Leaves

end LinuxPrograms.C1000k
