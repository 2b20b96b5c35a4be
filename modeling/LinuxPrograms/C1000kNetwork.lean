import LinuxPrograms.C1000kTimers
import LinuxPrograms.LibRecords

/-! Constants, connection items, events and hand-off buffers of the c1000k server (network.h).
A function pointer is `Option` of the function it names, `none` standing for `NULL`. -/
namespace LinuxPrograms.C1000k
open Lib

def maxFd : ℕ := 220*10*1024

def maxAcceptSize : ℕ := 1024

def maxCpu : ℕ := 128

/-- `sizeof(SendFdBuff::buff)`. -/
def sendBuffSize : ℕ := 4*30000

theorem maxFd_lt : maxFd < 2^32 := by decide

/-- The functions with the type `int (*)(int, int, TIMER *)` of `readfun`, `writefun` and
`closefun`. -/
inductive Callback
  | acceptReadfun
  | fdsendWritefun
  | readfunGetConnections
  | clientReadfun
  | clientWritefun
  | clientClosefun
deriving DecidableEq, Repr

inductive TimeoutCallback
  | clientTimeoutfun
deriving DecidableEq, Repr

/-- `m_lastread` and `m_timeout` are never read and are left out. -/
structure FDITEM where
  mReadfun : Option Callback
  mWritefun : Option Callback
  mClosefun : Option Callback
  mTimeoutfun : Option TimeoutCallback
  fd : ℕ
  mSended : ℤ
  mActiveclose : Bool
deriving DecidableEq, Repr

def FDITEM.init (p : FDITEM) : FDITEM where
  mReadfun := none
  mWritefun := none
  mClosefun := none
  mTimeoutfun := none
  fd := p.fd
  mSended := 0
  mActiveclose := false

/-- `new FDITEM` with `p->fd = i`, as main fills `gFDITEM`. -/
def FDITEM.new (i : ℕ) : FDITEM := ⟨none, none, none, none, i, 0, false⟩

/-- The bits of `epoll_event.events` the server uses or the kernel adds by itself. -/
structure Events where
  epollin : Bool
  epollout : Bool
  epollrdhup : Bool
  epollerr : Bool
  epollhup : Bool
deriving DecidableEq, Repr

/-- `EPOLLIN | EPOLLET`, the only subscription the server makes. -/
def Events.inEt : Events := ⟨true, false, false, false, false⟩

/-- What epoll can report under a subscription: the subscribed bits, and errors and hang-ups. -/
def Events.Reportable (sub ev : Events) : Prop :=
  (ev.epollin → sub.epollin) ∧ (ev.epollout → sub.epollout) ∧ (ev.epollrdhup → sub.epollrdhup)

instance (sub ev : Events) : Decidable (Events.Reportable sub ev) := by
  unfold Events.Reportable
  infer_instance

structure Event where
  fd : ℕ
  events : Events
deriving DecidableEq, Repr

/-- A node of `acceptedFDlist`; of `acceptedFdBuff` only the first `acceptedFdLen` bytes are
ever written or read. -/
structure AcceptedFD where
  acceptedFdLen : ℕ
  acceptedFdBuff : List UInt8
  len_eq : acceptedFdBuff.length = acceptedFdLen

/-- The node `accept_readfun` allocates for its local batch. -/
def AcceptedFD.ofBatch (fdBuff : List ℕ) : AcceptedFD :=
  ⟨4*fdBuff.length, encodeInts fdBuff, encodeInts_length fdBuff⟩

structure SendFdBuff where
  needSendLen : ℤ
  buff : List UInt8
  size_eq : buff.length = sendBuffSize

namespace SendFdBuff

/-- The zero-initialised global. -/
def zero : SendFdBuff := ⟨0, List.replicate sendBuffSize 0, List.length_replicate⟩

/-- Whether `memmove(buff + needSendLen, node->acceptedFdBuff, node->acceptedFdLen)` stays in
`buff`. -/
def Fits (b : SendFdBuff) (node : AcceptedFD) : Prop :=
  0 ≤ b.needSendLen ∧ b.needSendLen+node.acceptedFdLen ≤ sendBuffSize

instance (b : SendFdBuff) (node : AcceptedFD) : Decidable (b.Fits node) := by
  unfold Fits
  infer_instance

/-- The append of `dispatch_conn`. -/
def append (b : SendFdBuff) (node : AcceptedFD) (h : b.Fits node) : SendFdBuff where
  needSendLen := b.needSendLen+node.acceptedFdLen
  buff := copyTo b.buff b.needSendLen.toNat node.acceptedFdBuff
  size_eq := by
    obtain ⟨h0, hle⟩ := h
    rw [copyTo_length, b.size_eq]
    rw [b.size_eq, node.len_eq]
    omega

/-- The bytes `buff + sended` up to `buff + needSend`. -/
def slice (b : SendFdBuff) (sended needSend : ℤ) : List UInt8 :=
  (b.buff.take needSend.toNat).drop sended.toNat

/-- The end of `sendConnectionsToWorker`: the unsent bytes move to the front. -/
def settle (b : SendFdBuff) (needSend sended : ℤ) : SendFdBuff where
  needSendLen := needSend-sended
  buff := if needSend = sended then b.buff else copyTo b.buff 0 (b.slice sended needSend)
  size_eq := by
    split
    · exact b.size_eq
    · rw [copyTo_length, b.size_eq]
      simp only [slice, List.length_drop, List.length_take]
      omega

/-- The bytes still to be sent. -/
def pending (b : SendFdBuff) : List UInt8 := b.slice 0 b.needSendLen

theorem append_pending (b : SendFdBuff) (node : AcceptedFD) (h : b.Fits node) :
    (b.append node h).pending = b.pending ++ node.acceptedFdBuff := by
  have h0 := h.1
  have hle : b.needSendLen.toNat ≤ b.buff.length := by
    rw [b.size_eq]
    have := h.2
    omega
  have hlen : (b.needSendLen+node.acceptedFdLen).toNat =
      b.needSendLen.toNat+node.acceptedFdBuff.length := by
    rw [node.len_eq]
    omega
  simp only [pending, slice, append, Int.toNat_zero, List.drop_zero, hlen]
  exact take_copyTo b.buff b.needSendLen.toNat node.acceptedFdBuff hle

theorem settle_pending (b : SendFdBuff) (needSend sended : ℤ) (h0 : 0 ≤ sended)
    (h : sended ≤ needSend) (hb : needSend ≤ sendBuffSize) :
    (b.settle needSend sended).pending = b.slice sended needSend := by
  by_cases heq : needSend = sended
  · subst heq
    simp [pending, settle, slice]
  · have hlen : (needSend-sended).toNat = 0+(b.slice sended needSend).length := by
      simp only [slice, List.length_drop, List.length_take, b.size_eq]
      omega
    have hbuff : (b.settle needSend sended).buff = copyTo b.buff 0 (b.slice sended needSend) :=
      if_neg heq
    have hs := take_copyTo b.buff 0 (b.slice sended needSend) (Nat.zero_le _)
    rw [← hlen] at hs
    rw [pending, slice, hbuff, Int.toNat_zero, List.drop_zero]
    exact hs

end SendFdBuff

end LinuxPrograms.C1000k
