import LinuxPrograms.Uart

/-! What the settings of a port before `set_uart_attr` (uart.c) have to do with those after: the
fields of the words of flags that a call sets, and those that show through. -/
namespace LinuxPrograms.Uart
open Lib

/-! What a call does to a field of a word. -/

theorem frameCflag_covers (size : DataBits) (parity : Parity) (two : Bool) :
    (frameCflag size parity two).Covers (CSIZE ||| PARENB ||| CSTOPB) := by
  cases size <;> cases parity <;> cases two <;> decide

/-- The kind of parity is set whenever there is one. -/
theorem frameCflag_covers_parodd (size : DataBits) (parity : Parity) (two : Bool)
    (h : (frameCflag size parity two).value &&& PARENB ≠ 0) :
    (frameCflag size parity two).Covers PARODD := by
  revert h
  cases size <;> cases parity <;> cases two <;> decide

theorem frameCflag_avoids (size : DataBits) (parity : Parity) (two : Bool) :
    (frameCflag size parity two).Avoids CRTSCTS := by
  cases size <;> cases parity <;> cases two <;> decide

theorem speedCflag_avoids (speed : BitVec 32) : (speedCflag speed).Avoids CRTSCTS := by
  unfold speedCflag
  split_ifs
  · decide
  · change CRTSCTS &&& CBAUD = 0
    decide

theorem speedIflag_avoids (speed : BitVec 32) :
    (speedIflag speed).Avoids (IXON ||| IXOFF ||| IXANY ||| INPCK) := by
  unfold speedIflag
  split_ifs <;> decide

theorem flowIflag_avoids {flowCtrl : ℤ} (h : flowCtrl ≠ 2) :
    (flowIflag flowCtrl).Avoids (IXON ||| IXOFF ||| IXANY) := by
  unfold flowIflag
  split_ifs <;> first | contradiction | decide

theorem flowIflag_avoids_inpck (flowCtrl : ℤ) : (flowIflag flowCtrl).Avoids INPCK := by
  unfold flowIflag
  split_ifs <;> decide

theorem Parity.iflag_avoids (parity : Parity) :
    parity.iflag.Avoids (IXON ||| IXOFF ||| IXANY) := by
  cases parity <;> decide

theorem Parity.iflag_covers {parity : Parity} (h : parity ≠ .space) :
    parity.iflag.Covers INPCK := by
  cases parity <;> first | contradiction | decide

namespace Request

variable (r : Request)

/-- The bit for hardware flow control is never touched in its own word. -/
theorem cflag_avoids : r.cflag.Avoids CRTSCTS :=
  (((speedCflag_avoids r.speed).andThen (by decide)).andThen (by decide)).andThen
    (frameCflag_avoids _ _ _)

/-- Software flow control is turned on, but never off. -/
theorem iflag_avoids (h : r.flowCtrl ≠ 2) : r.iflag.Avoids (IXON ||| IXOFF ||| IXANY) := by
  have hspeed : (speedIflag r.speed).Avoids (IXON ||| IXOFF ||| IXANY) :=
    (speedIflag_avoids r.speed).part (by decide)
  exact (hspeed.andThen (flowIflag_avoids h)).andThen r.parity.iflag_avoids

theorem iflag_apply_software (h : r.flowCtrl = 2) (x : BitVec 32) :
    r.iflag.apply x &&& (IXON ||| IXOFF ||| IXANY) = IXON ||| IXOFF ||| IXANY := by
  have hcovers : (flowIflag r.flowCtrl).Covers (IXON ||| IXOFF ||| IXANY) := by
    rw [h]
    decide
  rw [iflag, r.parity.iflag_avoids.andThen_apply_and, hcovers.andThen_apply_and, h]
  decide

theorem iflag_avoids_inpck (h : r.parity = .space) : r.iflag.Avoids INPCK := by
  have hspeed : (speedIflag r.speed).Avoids INPCK := (speedIflag_avoids r.speed).part (by decide)
  refine (hspeed.andThen (flowIflag_avoids_inpck _)).andThen ?_
  rw [h]
  decide

end Request

/-! Two ports with different settings before, and one request. -/

/-- The line settings of the two are the same. -/
structure SameLine (a b : Termios) : Prop where
  hardware : a.c_cflag &&& CRTSCTS = b.c_cflag &&& CRTSCTS
  software : a.c_iflag &&& (IXON ||| IXOFF ||| IXANY) = b.c_iflag &&& (IXON ||| IXOFF ||| IXANY)
  frame : a.c_cflag &&& (CSIZE ||| PARENB ||| CSTOPB) = b.c_cflag &&& (CSIZE ||| PARENB ||| CSTOPB)
  odd : a.c_cflag &&& PARENB ≠ 0 → a.c_cflag &&& PARODD = b.c_cflag &&& PARODD
  check : a.c_iflag &&& INPCK = b.c_iflag &&& INPCK

/-- Flow control is what was asked for. -/
structure FlowIs (flowCtrl : ℤ) (t : Termios) : Prop where
  hardware : t.c_cflag &&& CRTSCTS ≠ 0 ↔ flowCtrl = 1
  software : t.c_iflag &&& (IXON ||| IXOFF) = if flowCtrl = 2 then IXON ||| IXOFF else 0

/-- What the settings before have to be: the bits that the request ought to set or clear, and
does not, have the right values already. -/
structure Prepared (flowCtrl parity : ℤ) (a b : Termios) : Prop where
  hardware : (a.c_cflag &&& CRTSCTS ≠ 0 ↔ flowCtrl = 1) ∧ (b.c_cflag &&& CRTSCTS ≠ 0 ↔ flowCtrl = 1)
  software : flowCtrl ≠ 2 → a.c_iflag &&& (IXON ||| IXOFF) = 0 ∧
    b.c_iflag &&& (IXON ||| IXOFF) = 0 ∧ a.c_iflag &&& IXANY = b.c_iflag &&& IXANY
  check : parity = ch 's' ∨ parity = ch 'S' → a.c_iflag &&& INPCK = b.c_iflag &&& INPCK

namespace Request

variable (r : Request) (a b : Termios)

/-- A field that the last three switches cover. -/
theorem settings_covered {field : BitVec 32}
    (h : (frameCflag r.dataBits r.parity r.twoStopBits).Covers field) :
    (r.settings a).c_cflag &&& field = (r.settings b).c_cflag &&& field := by
  rw [settings, settings, cflag, h.andThen_apply_and, h.andThen_apply_and]

theorem settings_frame : (r.settings a).c_cflag &&& (CSIZE ||| PARENB ||| CSTOPB) =
    (r.settings b).c_cflag &&& (CSIZE ||| PARENB ||| CSTOPB) :=
  r.settings_covered a b (frameCflag_covers r.dataBits r.parity r.twoStopBits)

theorem settings_odd (h : (r.settings a).c_cflag &&& PARENB ≠ 0) :
    (r.settings a).c_cflag &&& PARODD = (r.settings b).c_cflag &&& PARODD := by
  have hparenb : (frameCflag r.dataBits r.parity r.twoStopBits).Covers PARENB :=
    (frameCflag_covers r.dataBits r.parity r.twoStopBits).part (by decide)
  rw [settings, cflag, hparenb.andThen_apply_and] at h
  exact r.settings_covered a b (frameCflag_covers_parodd r.dataBits r.parity r.twoStopBits h)

theorem settings_hardware : (r.settings a).c_cflag &&& CRTSCTS = a.c_cflag &&& CRTSCTS :=
  r.cflag_avoids.apply_and a.c_cflag

theorem settings_software_eq_iff :
    (r.settings a).c_iflag &&& (IXON ||| IXOFF ||| IXANY) =
        (r.settings b).c_iflag &&& (IXON ||| IXOFF ||| IXANY) ↔
      (r.flowCtrl ≠ 2 → a.c_iflag &&& (IXON ||| IXOFF ||| IXANY) =
        b.c_iflag &&& (IXON ||| IXOFF ||| IXANY)) := by
  by_cases htwo : r.flowCtrl = 2
  · simp [htwo, settings, r.iflag_apply_software htwo]
  · simp [htwo, settings, (r.iflag_avoids htwo).apply_and]

theorem settings_check_eq_iff :
    (r.settings a).c_iflag &&& INPCK = (r.settings b).c_iflag &&& INPCK ↔
      (r.parity = .space → a.c_iflag &&& INPCK = b.c_iflag &&& INPCK) := by
  by_cases hspace : r.parity = .space
  · simp [hspace, settings, (r.iflag_avoids_inpck hspace).apply_and]
  · have hcovers := Parity.iflag_covers hspace
    simp [hspace, settings, iflag, hcovers.andThen_apply_and]

theorem sameLine_settings_iff : SameLine (r.settings a) (r.settings b) ↔
    a.c_cflag &&& CRTSCTS = b.c_cflag &&& CRTSCTS ∧
    (r.flowCtrl ≠ 2 → a.c_iflag &&& (IXON ||| IXOFF ||| IXANY) =
      b.c_iflag &&& (IXON ||| IXOFF ||| IXANY)) ∧
    (r.parity = .space → a.c_iflag &&& INPCK = b.c_iflag &&& INPCK) := by
  rw [← settings_software_eq_iff, ← settings_check_eq_iff, ← r.settings_hardware a,
    ← r.settings_hardware b]
  constructor
  · intro h
    exact ⟨h.hardware, h.software, h.check⟩
  · rintro ⟨hhard, hsoft, hcheck⟩
    exact ⟨hhard, hsoft, r.settings_frame a b, r.settings_odd a b, hcheck⟩

theorem flowIs_settings_iff : FlowIs r.flowCtrl (r.settings a) ↔
    (a.c_cflag &&& CRTSCTS ≠ 0 ↔ r.flowCtrl = 1) ∧
    (r.flowCtrl ≠ 2 → a.c_iflag &&& (IXON ||| IXOFF) = 0) := by
  have hsoft : (r.settings a).c_iflag &&& (IXON ||| IXOFF) =
      (if r.flowCtrl = 2 then IXON ||| IXOFF else 0) ↔
      (r.flowCtrl ≠ 2 → a.c_iflag &&& (IXON ||| IXOFF) = 0) := by
    by_cases htwo : r.flowCtrl = 2
    · have hon : (r.settings a).c_iflag &&& (IXON ||| IXOFF) = _ &&& (IXON ||| IXOFF) :=
        and_part ((r.iflag_apply_software htwo a.c_iflag).trans BitVec.and_self.symm) (by decide)
      rw [hon]
      simp [htwo]
      decide
    · have havoids : r.iflag.Avoids (IXON ||| IXOFF) := (r.iflag_avoids htwo).part (by decide)
      simp [htwo, settings, havoids.apply_and]
  rw [← hsoft, ← r.settings_hardware a]
  constructor
  · intro h
    exact ⟨h.hardware, h.software⟩
  · intro h
    exact ⟨h.1, h.2⟩

end Request

theorem parityOf_space_iff (parity : ℤ) :
    parityOf parity = .ok .space ↔ parity = ch 's' ∨ parity = ch 'S' := by
  constructor
  · intro h
    unfold parityOf at h
    split_ifs at h <;> first | assumption | cases h
  · rintro (rfl | rfl) <;> rfl

/-- The request has the parity and the flow control of the arguments. -/
theorem requestOf_args {bandRate dataBits stopBits parity flowCtrl : ℤ} {r : Request}
    (h : requestOf bandRate dataBits stopBits parity flowCtrl = .ok r) :
    parityOf parity = .ok r.parity ∧ r.flowCtrl = flowCtrl := by
  unfold requestOf at h
  cases hsize : dataBitsOf dataBits <;> cases hparity : parityOf parity <;>
    cases htwo : twoStopBitsOf stopBits <;>
    simp [hsize, hparity, htwo, bind, Except.bind, pure, Except.pure] at h
  rw [← h]
  exact ⟨rfl, rfl⟩

theorem setUartAttr_attr {uart : Port} {bandRate dataBits stopBits parity flowCtrl : ℤ}
    {r : Request} (hr : requestOf bandRate dataBits stopBits parity flowCtrl = .ok r)
    (h : (setUartAttr uart bandRate dataBits stopBits parity flowCtrl).rc = 0) :
    (setUartAttr uart bandRate dataBits stopBits parity flowCtrl).attr = r.settings uart.attr := by
  obtain ⟨r', hr', -, -, hcall⟩ | ⟨-, text, hcall⟩ :=
    setUartAttr_cases uart bandRate dataBits stopBits parity flowCtrl
  · rw [hcall, Except.ok.inj (hr.symm.trans hr')]
  · rw [hcall] at h
    contradiction

/-- Two ports have the same line settings after the same call, with the flow control that was asked
for, exactly if the bits that the call forgets were right before. -/
theorem lineSettings_agree_iff (p q : Port) (bandRate dataBits stopBits parity flowCtrl : ℤ)
    (hp : (setUartAttr p bandRate dataBits stopBits parity flowCtrl).rc = 0)
    (hq : (setUartAttr q bandRate dataBits stopBits parity flowCtrl).rc = 0) :
    (SameLine (setUartAttr p bandRate dataBits stopBits parity flowCtrl).attr
        (setUartAttr q bandRate dataBits stopBits parity flowCtrl).attr ∧
      FlowIs flowCtrl (setUartAttr p bandRate dataBits stopBits parity flowCtrl).attr ∧
      FlowIs flowCtrl (setUartAttr q bandRate dataBits stopBits parity flowCtrl).attr) ↔
    Prepared flowCtrl parity p.attr q.attr := by
  obtain ⟨r, hr⟩ := (requestOf_ok_iff bandRate dataBits stopBits parity flowCtrl).mpr
    ((rc_eq_zero_iff p bandRate dataBits stopBits parity flowCtrl).mp hp).2.2
  obtain ⟨hparity, hflow⟩ := requestOf_args hr
  have hspace : r.parity = .space ↔ parity = ch 's' ∨ parity = ch 'S' := by
    rw [← parityOf_space_iff, hparity, Except.ok.injEq]
  rw [setUartAttr_attr hr hp, setUartAttr_attr hr hq, ← hflow, r.sameLine_settings_iff,
    r.flowIs_settings_iff, r.flowIs_settings_iff, hspace]
  constructor
  · rintro ⟨⟨-, hsoft, hcheck⟩, ⟨hhard₁, hoff₁⟩, ⟨hhard₂, hoff₂⟩⟩
    refine ⟨⟨hhard₁, hhard₂⟩, fun htwo => ?_, hcheck⟩
    exact ⟨hoff₁ htwo, hoff₂ htwo, and_part (hsoft htwo) (by decide)⟩
  · rintro ⟨⟨hhard₁, hhard₂⟩, hsoft, hcheck⟩
    -- The flag `CRTSCTS` is on in both or in neither, since the argument says which.
    have hsame : p.attr.c_cflag &&& CRTSCTS = q.attr.c_cflag &&& CRTSCTS := by
      refine (and_twoPow_eq_iff p.attr.c_cflag q.attr.c_cflag 31).mpr ?_
      exact not_iff_not.mp (hhard₁.trans hhard₂.symm)
    refine ⟨⟨hsame, fun htwo => ?_, hcheck⟩, ⟨hhard₁, fun htwo => (hsoft htwo).1⟩,
      ⟨hhard₂, fun htwo => (hsoft htwo).2.1⟩⟩
    obtain ⟨hoff₁, hoff₂, hany⟩ := hsoft htwo
    exact and_or_eq (hoff₁.trans hoff₂.symm) hany

/-- Two ports that were never set before, and 115200 8N1 without flow control. -/
theorem lineSettings_agree_blank :
    let p : Port := ⟨⟨0, 0, 0, 0, 0, 0, 0, 0⟩, true, true⟩
    let q : Port := ⟨⟨0o400, 0o5, 0o2277, 0o105073, 0, 1, 0o15, 0o15⟩, true, true⟩
    SameLine (setUartAttr p 0o10002 8 1 (ch 'N') 0).attr
        (setUartAttr q 0o10002 8 1 (ch 'N') 0).attr ∧
      FlowIs 0 (setUartAttr p 0o10002 8 1 (ch 'N') 0).attr ∧
      FlowIs 0 (setUartAttr q 0o10002 8 1 (ch 'N') 0).attr := by
  intro p q
  refine (lineSettings_agree_iff p q 0o10002 8 1 (ch 'N') 0 (by decide) (by decide)).mpr
    ⟨by decide, by decide, by decide⟩

/-- The port of one was used with hardware flow control before: it stays on. And where it is asked
for, it does not come on. -/
theorem lineSettings_differ :
    let p : Port := ⟨⟨0, 0, 0, 0, 0, 0, 0, 0⟩, true, true⟩
    let q : Port := ⟨⟨0, 0, CRTSCTS, 0, 0, 0, 0, 0⟩, true, true⟩
    ((setUartAttr p 0o10002 8 1 (ch 'N') 0).rc = 0 ∧ (setUartAttr q 0o10002 8 1 (ch 'N') 0).rc = 0 ∧
      ¬ SameLine (setUartAttr p 0o10002 8 1 (ch 'N') 0).attr
        (setUartAttr q 0o10002 8 1 (ch 'N') 0).attr) ∧
    (setUartAttr p 0o10002 8 1 (ch 'N') 1).rc = 0 ∧
      ¬ FlowIs 1 (setUartAttr p 0o10002 8 1 (ch 'N') 1).attr := by
  intro p q
  refine ⟨⟨by decide, by decide, fun h => ?_⟩, by decide, fun h => ?_⟩
  · exact absurd h.hardware (by decide)
  · exact absurd h.hardware (by decide)

/-! Calls one after the other. -/

/-- The arguments of a call, and whether `tcgetattr` and `tcsetattr` succeed in it. -/
structure Call where
  bandRate : ℤ
  dataBits : ℤ
  stopBits : ℤ
  parity : ℤ
  flowCtrl : ℤ
  getOk : Bool
  setOk : Bool

def Call.after (opt : Termios) (c : Call) : Termios :=
  (setUartAttr ⟨opt, c.getOk, c.setOk⟩ c.bandRate c.dataBits c.stopBits c.parity c.flowCtrl).attr

theorem Call.after_cases (opt : Termios) (c : Call) :
    c.after opt = opt ∨ ∃ r : Request, c.after opt = r.settings opt := by
  unfold Call.after
  obtain ⟨r, -, -, -, hcall⟩ | ⟨-, text, hcall⟩ := setUartAttr_cases
    ⟨opt, c.getOk, c.setOk⟩ c.bandRate c.dataBits c.stopBits c.parity c.flowCtrl
  · exact .inr ⟨r, by rw [hcall]⟩
  · exact .inl (by rw [hcall])

/-- What every request keeps, all calls keep. -/
theorem calls_keep {P : Termios → Prop} (hkeep : ∀ (r : Request) opt, P opt → P (r.settings opt))
    (calls : List Call) {opt : Termios} (h : P opt) : P (calls.foldl Call.after opt) := by
  apply List.foldlRecOn calls Call.after h
  intro opt' hP c _
  obtain hsame | ⟨r, hset⟩ := c.after_cases opt'
  · rwa [hsame]
  · rw [hset]
    exact hkeep r opt' hP

/-- No calls turn hardware flow control on, or off. -/
theorem calls_hardware (calls : List Call) (opt : Termios) :
    (calls.foldl Call.after opt).c_cflag &&& CRTSCTS = opt.c_cflag &&& CRTSCTS := by
  apply calls_keep (P := fun opt' => opt'.c_cflag &&& CRTSCTS = opt.c_cflag &&& CRTSCTS)
  · intro r opt' h
    exact (r.settings_hardware opt').trans h
  · rfl

/-- Software flow control that is on stays on. -/
theorem calls_software (calls : List Call) (opt : Termios)
    (hon : opt.c_iflag &&& (IXON ||| IXOFF ||| IXANY) = IXON ||| IXOFF ||| IXANY) :
    (calls.foldl Call.after opt).c_iflag &&& (IXON ||| IXOFF ||| IXANY) =
      IXON ||| IXOFF ||| IXANY := by
  apply calls_keep (P := fun opt =>
    opt.c_iflag &&& (IXON ||| IXOFF ||| IXANY) = IXON ||| IXOFF ||| IXANY)
  · intro r opt h
    by_cases htwo : r.flowCtrl = 2
    · exact r.iflag_apply_software htwo opt.c_iflag
    · exact ((r.iflag_avoids htwo).apply_and opt.c_iflag).trans h
  · exact hon

end LinuxPrograms.Uart
