import LinuxPrograms.LibFlags
import Mathlib.Tactic.Common

/-! `set_uart_attr` (uart.c), with the flags of Linux: the settings of a port before it is called,
and after. What it does to a word of flags is an update that the arguments fix. -/
namespace LinuxPrograms.Uart
open Lib

/-! Flags. -/

def IXON : BitVec 32 := 0o2000
def IXANY : BitVec 32 := 0o4000
def IXOFF : BitVec 32 := 0o10000
def INPCK : BitVec 32 := 0o20
def IBAUD0 : BitVec 32 := 0o20000000000

def OPOST : BitVec 32 := 0o1

def CBAUD : BitVec 32 := 0o10017
def CSIZE : BitVec 32 := 0o60
def CS5 : BitVec 32 := 0o0
def CS6 : BitVec 32 := 0o20
def CS7 : BitVec 32 := 0o40
def CS8 : BitVec 32 := 0o60
def CSTOPB : BitVec 32 := 0o100
def CREAD : BitVec 32 := 0o200
def PARENB : BitVec 32 := 0o400
def PARODD : BitVec 32 := 0o1000
def CLOCAL : BitVec 32 := 0o4000
def CRTSCTS : BitVec 32 := 0o20000000000

def ISIG : BitVec 32 := 0o1
def ICANON : BitVec 32 := 0o2
def ECHO : BitVec 32 := 0o10
def ECHOE : BitVec 32 := 0o20

def B57600 : BitVec 32 := 0o10001
def B4000000 : BitVec 32 := 0o10017

/-- `struct termios`; of `c_cc`, the places `VTIME` and `VMIN`. -/
structure Termios where
  c_iflag : BitVec 32
  c_oflag : BitVec 32
  c_cflag : BitVec 32
  c_lflag : BitVec 32
  vtime : UInt8
  vmin : UInt8
  c_ispeed : BitVec 32
  c_ospeed : BitVec 32
deriving DecidableEq, Repr

/-- The speeds that `cfsetispeed` and `cfsetospeed` refuse. -/
def BadSpeed (speed : BitVec 32) : Prop :=
  speed &&& ~~~CBAUD ≠ 0 ∧ (speed < B57600 ∨ B4000000 < speed)

instance (speed : BitVec 32) : Decidable (BadSpeed speed) :=
  inferInstanceAs (Decidable (_ ∧ _))

/-- The input speed; 0 stands for the output speed and is kept in a bit of `c_iflag`. -/
def cfsetispeed (opt : Termios) (speed : BitVec 32) : Termios :=
  if BadSpeed speed then opt
  else if speed = 0 then { opt with c_ispeed := speed, c_iflag := opt.c_iflag ||| IBAUD0 }
  else { opt with
    c_ispeed := speed
    c_iflag := opt.c_iflag &&& ~~~IBAUD0
    c_cflag := opt.c_cflag &&& ~~~CBAUD ||| speed }

def cfsetospeed (opt : Termios) (speed : BitVec 32) : Termios :=
  if BadSpeed speed then opt
  else { opt with c_ospeed := speed, c_cflag := opt.c_cflag &&& ~~~CBAUD ||| speed }

/-! The four switches. -/

def setFlowCtrl (flowCtrl : ℤ) (opt : Termios) : Termios :=
  if flowCtrl = 0 then { opt with c_iflag := opt.c_iflag &&& ~~~CRTSCTS }
  else if flowCtrl = 1 then { opt with c_iflag := opt.c_iflag ||| CRTSCTS }
  else if flowCtrl = 2 then { opt with c_iflag := opt.c_iflag ||| (IXON ||| IXOFF ||| IXANY) }
  else opt

def setDataBits (dataBits : ℤ) (opt : Termios) : Except String Termios :=
  if dataBits = 5 then .ok { opt with c_cflag := opt.c_cflag ||| CS5 }
  else if dataBits = 6 then .ok { opt with c_cflag := opt.c_cflag ||| CS6 }
  else if dataBits = 7 then .ok { opt with c_cflag := opt.c_cflag ||| CS7 }
  else if dataBits = 8 then .ok { opt with c_cflag := opt.c_cflag ||| CS8 }
  else .error "unsupported data size\n"

/-- A character constant. -/
def ch (c : Char) : ℤ := c.toNat

def setParity (parity : ℤ) (opt : Termios) : Except String Termios :=
  if parity = ch 'n' ∨ parity = ch 'N' then
    .ok { opt with c_cflag := opt.c_cflag &&& ~~~PARENB, c_iflag := opt.c_iflag &&& ~~~INPCK }
  else if parity = ch 'o' ∨ parity = ch 'O' then
    .ok { opt with
      c_cflag := opt.c_cflag ||| (PARODD ||| PARENB), c_iflag := opt.c_iflag ||| INPCK }
  else if parity = ch 'e' ∨ parity = ch 'E' then
    .ok { opt with
      c_cflag := (opt.c_cflag ||| PARENB) &&& ~~~PARODD, c_iflag := opt.c_iflag ||| INPCK }
  else if parity = ch 's' ∨ parity = ch 'S' then
    .ok { opt with c_cflag := opt.c_cflag &&& ~~~PARENB }
  else .error "unsupported parity\n"

def setStopBits (stopBits : ℤ) (opt : Termios) : Except String Termios :=
  if stopBits = 1 then .ok { opt with c_cflag := opt.c_cflag &&& ~~~CSTOPB }
  else if stopBits = 2 then .ok { opt with c_cflag := opt.c_cflag ||| CSTOPB }
  else .error "unsupported stop bits\n"

/-- What `opt` is when `tcsetattr` is called, or what is printed before -1 is returned. -/
def newAttr (opt : Termios) (bandRate dataBits stopBits parity flowCtrl : ℤ) :
    Except String Termios := do
  let speed := BitVec.ofInt 32 bandRate
  let opt := cfsetospeed (cfsetispeed opt speed) speed
  let opt := { opt with
    c_cflag := opt.c_cflag ||| CLOCAL ||| CREAD
    c_oflag := opt.c_oflag &&& ~~~OPOST
    c_lflag := opt.c_lflag &&& ~~~(ECHO ||| ICANON ||| ECHOE ||| ISIG) }
  let opt := setFlowCtrl flowCtrl opt
  let opt := { opt with c_cflag := opt.c_cflag &&& ~~~CSIZE }
  let opt ← setDataBits dataBits opt
  let opt ← setParity parity opt
  let opt ← setStopBits stopBits opt
  return { opt with vtime := 50, vmin := 255 }

/-- A serial port, and whether `tcgetattr` and `tcsetattr` succeed for it. -/
structure Port where
  attr : Termios
  getOk : Bool
  setOk : Bool

/-- What is returned, what is printed, and the settings of the port afterwards. -/
structure Outcome where
  rc : ℤ
  printed : String
  attr : Termios

/-- `set_uart_attr(uartFd, bandRate, dataBits, stopBits, parity, flowCtrl)`. -/
def setUartAttr (uart : Port) (bandRate dataBits stopBits parity flowCtrl : ℤ) : Outcome :=
  if !uart.getOk then ⟨-1, "get attr failed\n", uart.attr⟩
  else
    match newAttr uart.attr bandRate dataBits stopBits parity flowCtrl with
    | .error text => ⟨-1, text, uart.attr⟩
    | .ok opt =>
      if !uart.setOk then ⟨-1, "failed to set attr", uart.attr⟩ else ⟨0, "", opt⟩

/-! What the arguments ask for, without any word of flags. -/

inductive DataBits
  | five
  | six
  | seven
  | eight

def DataBits.cs : DataBits → BitVec 32
  | .five => CS5
  | .six => CS6
  | .seven => CS7
  | .eight => CS8

inductive Parity
  | none
  | odd
  | even
  | space
deriving DecidableEq

def Parity.cflag : Parity → FlagUpdate 32
  | .none => .clearBits PARENB
  | .odd => .setBits (PARODD ||| PARENB)
  | .even => (FlagUpdate.setBits PARENB).andThen (.clearBits PARODD)
  | .space => .clearBits PARENB

def Parity.iflag : Parity → FlagUpdate 32
  | .none => .clearBits INPCK
  | .odd => .setBits INPCK
  | .even => .setBits INPCK
  | .space => .keep

def dataBitsOf (dataBits : ℤ) : Except String DataBits :=
  if dataBits = 5 then .ok .five
  else if dataBits = 6 then .ok .six
  else if dataBits = 7 then .ok .seven
  else if dataBits = 8 then .ok .eight
  else .error "unsupported data size\n"

def parityOf (parity : ℤ) : Except String Parity :=
  if parity = ch 'n' ∨ parity = ch 'N' then .ok .none
  else if parity = ch 'o' ∨ parity = ch 'O' then .ok .odd
  else if parity = ch 'e' ∨ parity = ch 'E' then .ok .even
  else if parity = ch 's' ∨ parity = ch 'S' then .ok .space
  else .error "unsupported parity\n"

/-- Whether there are two stop bits. -/
def twoStopBitsOf (stopBits : ℤ) : Except String Bool :=
  if stopBits = 1 then .ok false
  else if stopBits = 2 then .ok true
  else .error "unsupported stop bits\n"

structure Request where
  speed : BitVec 32
  dataBits : DataBits
  parity : Parity
  twoStopBits : Bool
  flowCtrl : ℤ

def requestOf (bandRate dataBits stopBits parity flowCtrl : ℤ) : Except String Request := do
  let dataBits ← dataBitsOf dataBits
  let parity ← parityOf parity
  let twoStopBits ← twoStopBitsOf stopBits
  return ⟨BitVec.ofInt 32 bandRate, dataBits, parity, twoStopBits, flowCtrl⟩

/-- A speed that is not refused is inside its field. -/
theorem not_badSpeed (speed : BitVec 32) (h : ¬ BadSpeed speed) : speed &&& ~~~CBAUD = 0 := by
  by_contra hne
  have hlow : ¬ speed < B57600 := fun hs => h ⟨hne, .inl hs⟩
  have hhigh : ¬ B4000000 < speed := fun hs => h ⟨hne, .inr hs⟩
  have hall : ∀ k : Fin 16, BitVec.ofNat 32 (4096 + k) &&& ~~~CBAUD = 0 := by decide
  have hn : 4096 < speed.toNat ∧ speed.toNat < 4112 := by
    simp [BitVec.lt_def, B57600, B4000000] at hlow hhigh
    omega
  have hspeed := hall ⟨speed.toNat - 4096, by omega⟩
  rw [show 4096 + (speed.toNat - 4096) = speed.toNat by omega, BitVec.ofNat_toNat,
    BitVec.setWidth_eq] at hspeed
  exact hne hspeed

def speedCflag (speed : BitVec 32) : FlagUpdate 32 :=
  if h : BadSpeed speed then .keep else ⟨CBAUD, speed, not_badSpeed speed h⟩

def speedIflag (speed : BitVec 32) : FlagUpdate 32 :=
  if BadSpeed speed then .keep else if speed = 0 then .setBits IBAUD0 else .clearBits IBAUD0

/-- Hardware flow control goes to the bit `CRTSCTS` of the wrong word. -/
def flowIflag (flowCtrl : ℤ) : FlagUpdate 32 :=
  if flowCtrl = 0 then .clearBits CRTSCTS
  else if flowCtrl = 1 then .setBits CRTSCTS
  else if flowCtrl = 2 then .setBits (IXON ||| IXOFF ||| IXANY)
  else .keep

def stopCflag (twoStopBits : Bool) : FlagUpdate 32 :=
  if twoStopBits then .setBits CSTOPB else .clearBits CSTOPB

/-- What the last three switches do to `c_cflag`. -/
def frameCflag (size : DataBits) (parity : Parity) (twoStopBits : Bool) : FlagUpdate 32 :=
  (((FlagUpdate.clearBits CSIZE).andThen (.setBits size.cs)).andThen parity.cflag).andThen
    (stopCflag twoStopBits)

namespace Request

def cflag (r : Request) : FlagUpdate 32 :=
  (((speedCflag r.speed).andThen (.setBits CLOCAL)).andThen (.setBits CREAD)).andThen
    (frameCflag r.dataBits r.parity r.twoStopBits)

def iflag (r : Request) : FlagUpdate 32 :=
  ((speedIflag r.speed).andThen (flowIflag r.flowCtrl)).andThen r.parity.iflag

/-- The settings that a request leads to. -/
def settings (r : Request) (opt : Termios) : Termios where
  c_iflag := r.iflag.apply opt.c_iflag
  c_oflag := (FlagUpdate.clearBits OPOST).apply opt.c_oflag
  c_cflag := r.cflag.apply opt.c_cflag
  c_lflag := (FlagUpdate.clearBits (ECHO ||| ICANON ||| ECHOE ||| ISIG)).apply opt.c_lflag
  vtime := 50
  vmin := 255
  c_ispeed := if BadSpeed r.speed then opt.c_ispeed else r.speed
  c_ospeed := if BadSpeed r.speed then opt.c_ospeed else r.speed

end Request

theorem cfset_speeds (opt : Termios) (speed : BitVec 32) :
    cfsetospeed (cfsetispeed opt speed) speed = { opt with
      c_iflag := (speedIflag speed).apply opt.c_iflag
      c_cflag := (speedCflag speed).apply opt.c_cflag
      c_ispeed := if BadSpeed speed then opt.c_ispeed else speed
      c_ospeed := if BadSpeed speed then opt.c_ospeed else speed } := by
  by_cases hbad : BadSpeed speed
  · simp [cfsetospeed, cfsetispeed, speedIflag, speedCflag, hbad, FlagUpdate.apply_keep]
  · have hcflag (x : BitVec 32) : (speedCflag speed).apply x = x &&& ~~~CBAUD ||| speed := by
      simp [speedCflag, hbad, FlagUpdate.apply]
    have htwice := (speedCflag speed).apply_apply opt.c_cflag
    rw [hcflag, hcflag] at htwice
    by_cases hzero : speed = 0
    · simp only [cfsetospeed, cfsetispeed, speedIflag, if_neg hbad, if_pos hzero, hcflag,
        FlagUpdate.apply_setBits]
    · simp only [cfsetospeed, cfsetispeed, speedIflag, if_neg hbad, if_neg hzero, hcflag, htwice,
        FlagUpdate.apply_clearBits]

theorem setFlowCtrl_eq (flowCtrl : ℤ) (opt : Termios) :
    setFlowCtrl flowCtrl opt = { opt with c_iflag := (flowIflag flowCtrl).apply opt.c_iflag } := by
  unfold setFlowCtrl flowIflag
  split_ifs <;> simp [FlagUpdate.apply_clearBits, FlagUpdate.apply_setBits, FlagUpdate.apply_keep]

theorem setDataBits_eq (dataBits : ℤ) (opt : Termios) :
    setDataBits dataBits opt = (dataBitsOf dataBits).map fun size =>
      { opt with c_cflag := (FlagUpdate.setBits size.cs).apply opt.c_cflag } := by
  unfold setDataBits dataBitsOf
  split_ifs <;> simp [Except.map, DataBits.cs, FlagUpdate.apply_setBits]

theorem setParity_eq (parity : ℤ) (opt : Termios) :
    setParity parity opt = (parityOf parity).map fun parity =>
      { opt with
        c_cflag := parity.cflag.apply opt.c_cflag
        c_iflag := parity.iflag.apply opt.c_iflag } := by
  unfold setParity parityOf
  split_ifs <;> simp [Except.map, Parity.cflag, Parity.iflag, FlagUpdate.apply_andThen,
    FlagUpdate.apply_setBits, FlagUpdate.apply_clearBits, FlagUpdate.apply_keep]

theorem setStopBits_eq (stopBits : ℤ) (opt : Termios) :
    setStopBits stopBits opt = (twoStopBitsOf stopBits).map fun two =>
      { opt with c_cflag := (stopCflag two).apply opt.c_cflag } := by
  unfold setStopBits twoStopBitsOf
  split_ifs <;> simp [Except.map, stopCflag, FlagUpdate.apply_setBits, FlagUpdate.apply_clearBits]

/-- The settings are the request of the arguments carried out; which arguments are refused has
nothing to do with the settings before. -/
theorem newAttr_eq (opt : Termios) (bandRate dataBits stopBits parity flowCtrl : ℤ) :
    newAttr opt bandRate dataBits stopBits parity flowCtrl =
      (requestOf bandRate dataBits stopBits parity flowCtrl).map (·.settings opt) := by
  simp only [newAttr, requestOf, cfset_speeds, setFlowCtrl_eq, setDataBits_eq, setParity_eq,
    setStopBits_eq]
  cases dataBitsOf dataBits with
  | error text => rfl
  | ok size =>
    cases parityOf parity with
    | error text => rfl
    | ok parity =>
      cases twoStopBitsOf stopBits with
      | error text => rfl
      | ok two =>
        simp only [Except.map, bind, Except.bind, pure, Except.pure, Request.settings,
          Request.cflag, Request.iflag, frameCflag, FlagUpdate.apply_andThen,
          FlagUpdate.apply_setBits, FlagUpdate.apply_clearBits]

/-- The arguments that are supported. -/
def Supported (dataBits stopBits parity : ℤ) : Prop :=
  (5 ≤ dataBits ∧ dataBits ≤ 8) ∧ (stopBits = 1 ∨ stopBits = 2) ∧
    parity ∈ [ch 'n', ch 'N', ch 'o', ch 'O', ch 'e', ch 'E', ch 's', ch 'S']

theorem requestOf_ok_iff (bandRate dataBits stopBits parity flowCtrl : ℤ) :
    (∃ r, requestOf bandRate dataBits stopBits parity flowCtrl = .ok r) ↔
      Supported dataBits stopBits parity := by
  have hsize : (∃ size, dataBitsOf dataBits = .ok size) ↔ 5 ≤ dataBits ∧ dataBits ≤ 8 := by
    unfold dataBitsOf
    split_ifs <;> simp <;> omega
  have htwo : (∃ two, twoStopBitsOf stopBits = .ok two) ↔ stopBits = 1 ∨ stopBits = 2 := by
    unfold twoStopBitsOf
    split_ifs <;> simp <;> omega
  have hparity : (∃ p, parityOf parity = .ok p) ↔
      parity ∈ [ch 'n', ch 'N', ch 'o', ch 'O', ch 'e', ch 'E', ch 's', ch 'S'] := by
    unfold parityOf
    split_ifs <;> simp <;> omega
  unfold Supported requestOf
  rw [← hsize, ← htwo, ← hparity]
  cases dataBitsOf dataBits <;> cases parityOf parity <;> cases twoStopBitsOf stopBits <;>
    simp [bind, Except.bind, pure, Except.pure]

/-- A call either carries out the request or leaves the settings as they were. -/
theorem setUartAttr_cases (uart : Port) (bandRate dataBits stopBits parity flowCtrl : ℤ) :
    (∃ r, requestOf bandRate dataBits stopBits parity flowCtrl = .ok r ∧
      uart.getOk = true ∧ uart.setOk = true ∧
      setUartAttr uart bandRate dataBits stopBits parity flowCtrl =
        ⟨0, "", r.settings uart.attr⟩) ∨
    ((¬ ∃ r, requestOf bandRate dataBits stopBits parity flowCtrl = .ok r) ∨
      uart.getOk = false ∨ uart.setOk = false) ∧
      ∃ text, setUartAttr uart bandRate dataBits stopBits parity flowCtrl =
        ⟨-1, text, uart.attr⟩ := by
  unfold setUartAttr
  rw [newAttr_eq]
  cases uart.getOk <;> cases requestOf bandRate dataBits stopBits parity flowCtrl <;>
    cases uart.setOk <;> simp [Except.map]

theorem rc_eq_zero_iff (uart : Port) (bandRate dataBits stopBits parity flowCtrl : ℤ) :
    (setUartAttr uart bandRate dataBits stopBits parity flowCtrl).rc = 0 ↔
      uart.getOk = true ∧ uart.setOk = true ∧ Supported dataBits stopBits parity := by
  rw [← requestOf_ok_iff bandRate dataBits stopBits parity flowCtrl]
  obtain ⟨r, hr, hget, hset, h⟩ | ⟨hno, text, h⟩ :=
    setUartAttr_cases uart bandRate dataBits stopBits parity flowCtrl
  · simp [h, hget, hset, hr]
  · simp [h]
    grind

/-- A call that fails changes nothing. -/
theorem setUartAttr_failed (uart : Port) (bandRate dataBits stopBits parity flowCtrl : ℤ)
    (h : (setUartAttr uart bandRate dataBits stopBits parity flowCtrl).rc ≠ 0) :
    (setUartAttr uart bandRate dataBits stopBits parity flowCtrl).attr = uart.attr := by
  obtain ⟨r, -, -, -, hcall⟩ | ⟨-, text, hcall⟩ :=
    setUartAttr_cases uart bandRate dataBits stopBits parity flowCtrl
  · exact absurd (by rw [hcall]) h
  · rw [hcall]

end LinuxPrograms.Uart
